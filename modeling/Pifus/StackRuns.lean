import Mathlib.Data.List.Nodup
import Mathlib.Data.List.Range
import Pifus.Stack
import Pifus.Util.Transition

/-!
# Every operation takes effect once, in order

Runs of the stack's main loop with the prio threads putting in between. An
operation *takes effect* when it is processed, with a result other than
`PIFUS_TRY_AGAIN`, as the operation it was put as; an entry that the recv scan
has rewritten is processed as a `NOP` when it reaches the front, and that is
not its effect.

For one ring everything is in `QueueInv`. What was put is split into what has
been erased and the rest; the ring holds the rest, with a `NOP` in place of
every operation that has taken effect already. Between the effect of an
operation and its erasure or its overwriting there is one ring operation, and
`mid` names the operation that waits for it.

The order comes out of two prefixes: the operations that took effect, receives
and others taken apart, are prefixes of the operations put.
-/

/-- Whether the operation was processed, and as what it was put as. -/
def Processed.tookEffect (r : Processed) : Bool :=
  r.result ≠ .tryAgain && r.entry.op.code = r.entry.origin.code

/-- Whether processing it counts as a dequeued operation. -/
def Processed.counts (r : Processed) : Bool :=
  r.tookEffect && r.entry.op.code ≠ .nop

/-- The result it hands to `enqueue_in_cqueue`. -/
def Processed.completion (r : Processed) : Completion :=
  ⟨r.entry.op.socket, r.entry.op.code, r.result⟩

namespace StackState

/-- **The operations of a ring that took effect**, in the order they did. -/
def effects (s : StackState) (prio : TxPrio) : List PifusInternalOperation :=
  (s.processed.filter (fun r => r.tookEffect && r.prio = prio)).map
    (fun r => r.entry.origin)

/-- The stack between two iterations, nothing processed yet: the rings hold
what was put, whatever that is. -/
structure Initial (s : StackState) : Prop where
  pc : s.pc = .outside
  processed : s.processed = []
  completions : s.completions = []
  erased : ∀ q, s.erased q = []
  contents : ∀ q, (s.queue q).contents = (s.log q).map (fun op => ⟨op, op⟩)
  serials : ∀ q, (s.log q).map PifusInternalOperation.serial
    = List.range (s.log q).length

end StackState

/-- The steps as a relation. -/
def StackStep (s : StackState) (e : StackEvent) (t : StackState) : Prop :=
  stackStep s e = some t

/-- The state a list of events leads to, if all of them can happen. -/
def stackRun (s : StackState) (es : List StackEvent) : Option StackState :=
  es.foldlM stackStep s

theorem run_of_stackRun {s t : StackState} {es : List StackEvent}
    (h : stackRun s es = some t) : Run StackStep s es t :=
  Run.of_foldlM h

/-- The operation is a receive. -/
def isRecv (op : PifusInternalOperation) : Bool := op.code = .tcpRecv

/-- What the ring holds in place of an operation. -/
def entryOf (eff : List PifusInternalOperation)
    (mid : Option PifusInternalOperation) (op : PifusInternalOperation) :
    TxEntry :=
  if op ∈ eff ∧ mid ≠ some op then ⟨{ op with code := .nop }, op⟩ else ⟨op, op⟩

/-- **The invariant of one ring**: the operations put are those erased and the
rest, and the ring holds the rest. -/
structure QueueInv (log eff : List PifusInternalOperation)
    (contents erased : List TxEntry) (mid : Option PifusInternalOperation) :
    Prop where
  serials : log.map PifusInternalOperation.serial = List.range log.length
  split : ∃ rest, log = erased.map TxEntry.origin ++ rest
    ∧ contents = rest.map (entryOf eff mid)
    ∧ ∀ op ∈ rest, op ∈ eff → mid ≠ some op → op.code = .tcpRecv
  gone : ∀ e ∈ erased, e.origin ∈ eff
  recvs : eff.filter isRecv <+: log.filter isRecv
  others : eff.filter (fun op => !isRecv op) <+: log.filter (fun op => !isRecv op)

/-! ## Prefixes -/

/-- **The next element of a prefix**: where everything in front of `e` is in
the prefix and `e` is not, the prefix ends in front of `e`. -/
theorem prefix_snoc {α : Type*} {E L A B : List α} {e : α} (hL : L.Nodup)
    (hE : E <+: L) (hsplit : L = A ++ e :: B) (hA : ∀ a ∈ A, a ∈ E)
    (he : e ∉ E) : E ++ [e] <+: L := by
  obtain ⟨t, ht⟩ := hE
  have hEA : E = A := by
    rw [hsplit] at ht
    rcases List.append_eq_append_iff.mp ht with ⟨c, hc, -⟩ | ⟨c, hc, ht'⟩
    · -- `A` is longer: what is behind `E` in it would be in `E` as well
      have hnd : (E ++ c).Nodup := by
        rw [hsplit, hc] at hL
        exact (List.nodup_append.mp hL).1
      have hcnil : c = [] := by
        refine List.eq_nil_iff_forall_not_mem.mpr (fun a ha => ?_)
        have hin : a ∈ E := hA a (by rw [hc]; exact List.mem_append_right _ ha)
        exact (List.nodup_append.mp hnd).2.2 a hin a ha rfl
      rw [hc, hcnil, List.append_nil]
    · cases c with
      | nil => rw [hc, List.append_nil]
      | cons x c =>
        obtain ⟨rfl, -⟩ := List.cons.inj ht'
        exact absurd (by rw [hc]; simp) he
  rw [hEA, hsplit]
  exact ⟨B, by simp⟩

/-! ## One ring -/

namespace QueueInv

variable {log eff : List PifusInternalOperation}
  {contents erased l r : List TxEntry} {mid : Option PifusInternalOperation}
  {op : PifusInternalOperation} {e : TxEntry}

theorem nodup (h : QueueInv log eff contents erased mid) : log.Nodup := by
  have hnd := List.nodup_range (n := log.length)
  rw [← h.serials] at hnd
  exact hnd.of_map _

theorem nodup_effects (h : QueueInv log eff contents erased mid) :
    eff.Nodup := by
  have hpart : ∀ p : PifusInternalOperation → Bool,
      eff.filter p <+: log.filter p → (eff.filter p).Nodup :=
    fun p hp => (h.nodup.filter p).sublist hp.sublist
  have hperm := List.filter_append_perm isRecv eff
  refine (hperm.nodup_iff).mp (List.nodup_append.mpr
    ⟨hpart _ h.recvs, hpart _ h.others, fun a ha b hb hab => ?_⟩)
  have h₁ := (List.mem_filter.mp ha).2
  have h₂ := (List.mem_filter.mp hb).2
  rw [← hab, h₁] at h₂
  exact absurd h₂ (by simp)

/-- What took effect was put. -/
theorem subset (h : QueueInv log eff contents erased mid) (hop : op ∈ eff) :
    op ∈ log := by
  by_cases hr : isRecv op = true
  · exact (List.mem_filter.mp
      (h.recvs.subset (List.mem_filter.mpr ⟨hop, hr⟩))).1
  · exact (List.mem_filter.mp
      (h.others.subset (List.mem_filter.mpr ⟨hop, by simpa using hr⟩))).1

/-- An entry of the ring holds its operation, or a `NOP` in place of a receive
that has taken effect. -/
theorem entry_cases (h : QueueInv log eff contents erased mid)
    (he : e ∈ contents) (hmid : mid ≠ some e.origin) :
    e.op = e.origin ∧ e.origin ∉ eff
    ∨ e.op = { e.origin with code := .nop } ∧ e.origin ∈ eff
      ∧ e.origin.code = .tcpRecv := by
  obtain ⟨rest, -, rfl, hrecv⟩ := h.split
  obtain ⟨op, hop, rfl⟩ := List.mem_map.mp he
  unfold entryOf at hmid ⊢
  by_cases heff : op ∈ eff ∧ mid ≠ some op
  · rw [if_pos heff]
    exact Or.inr ⟨rfl, heff.1, hrecv op hop heff.1 heff.2⟩
  · rw [if_neg heff] at hmid ⊢
    exact Or.inl ⟨rfl, fun hin => heff ⟨hin, hmid⟩⟩

/-- **A put** appends to the ring and to what was put. -/
theorem put (h : QueueInv log eff contents erased mid)
    (hserial : op.serial = log.length) :
    QueueInv (log ++ [op]) eff (contents ++ [⟨op, op⟩]) erased mid := by
  have hnew : op ∉ log := by
    intro hin
    have hlt : op.serial ∈ List.range log.length := by
      rw [← h.serials]
      exact List.mem_map.mpr ⟨op, hin, rfl⟩
    rw [List.mem_range, hserial] at hlt
    exact absurd hlt (Nat.lt_irrefl _)
  have heff : op ∉ eff := fun hin => hnew (h.subset hin)
  obtain ⟨rest, hlog, hcontents, hrecv⟩ := h.split
  refine ⟨?_, ⟨rest ++ [op], ?_, ?_, ?_⟩, h.gone, ?_, ?_⟩
  · rw [List.map_append, h.serials, List.length_append, List.map_singleton,
      List.length_singleton, List.range_succ, hserial]
  · rw [hlog, List.append_assoc]
  · rw [List.map_append, hcontents, List.map_singleton, entryOf,
      if_neg (fun hin => heff hin.1)]
  · intro o ho hin hne
    rcases List.mem_append.mp ho with ho | ho
    · exact hrecv o ho hin hne
    · obtain rfl := List.mem_singleton.mp ho
      exact absurd hin heff
  · rw [List.filter_append]
    exact h.recvs.trans (List.prefix_append _ _)
  · rw [List.filter_append]
    exact h.others.trans (List.prefix_append _ _)

/-- **An operation takes effect** that is at the front, or is the first
receive of the ring. -/
theorem effect (h : QueueInv log eff contents erased none)
    (hcontents : contents = l ++ e :: r) (hcode : e.op.code = e.origin.code)
    (hfirst : l = [] ∨ isRecv e.origin = true ∧ ∀ y ∈ l, isRecvOp y = false) :
    e.op = e.origin ∧ e.origin ∉ eff
    ∧ QueueInv log (eff ++ [e.origin]) contents erased (some e.origin) := by
  have hmem : e ∈ contents := by rw [hcontents]; simp
  have hnew : e.op = e.origin ∧ e.origin ∉ eff := by
    rcases h.entry_cases hmem (by simp) with hnew | ⟨hop, -, hrecv⟩
    · exact hnew
    · rw [hop, hrecv] at hcode
      exact absurd hcode (by simp)
  obtain ⟨rest, hlog, hmap, hrecv⟩ := h.split
  -- the operations behind the entries in front of `e`
  obtain ⟨a, b, hrest, hl, hr⟩ : ∃ a b, rest = a ++ e.origin :: b
      ∧ l = a.map (entryOf eff none) ∧ r = b.map (entryOf eff none) := by
    rw [hcontents] at hmap
    obtain ⟨a, b', hrest, hl, hb'⟩ := List.map_eq_append_iff.mp hmap.symm
    obtain ⟨x, b, rfl, hx, hr⟩ := List.map_eq_cons_iff.mp hb'
    have hxe : x = e.origin := by
      rw [← hx, entryOf]
      split <;> rfl
    exact ⟨a, b, by rw [hrest, hxe], hl.symm, hr.symm⟩
  have hsplit : log = (erased.map TxEntry.origin ++ a) ++ e.origin :: b := by
    rw [hlog, hrest, List.append_assoc]
  have hgone : ∀ o ∈ erased.map TxEntry.origin, o ∈ eff := by
    intro o ho
    obtain ⟨e', he', rfl⟩ := List.mem_map.mp ho
    exact h.gone e' he'
  -- those of the same kind have all taken effect
  have hfront : ∀ p : PifusInternalOperation → Bool,
      p = isRecv ∨ (p = fun op => !isRecv op) → p e.origin = true →
      ∀ o ∈ (erased.map TxEntry.origin ++ a).filter p, o ∈ eff.filter p := by
    intro p hp hpe o ho
    obtain ⟨ho, hpo⟩ := List.mem_filter.mp ho
    refine List.mem_filter.mpr ⟨?_, hpo⟩
    rcases List.mem_append.mp ho with ho | ho
    · exact hgone o ho
    · rcases hfirst with hnil | ⟨hre, hnone⟩
      · rw [hnil] at hl
        rw [List.map_eq_nil_iff.mp hl.symm] at ho
        exact absurd ho (by simp)
      · have hpr : p = isRecv := by
          rcases hp with hp | hp
          · exact hp
          · rw [hp] at hpe
            exact absurd hpe (by simp [hre])
        by_contra hoeff
        have hentry : entryOf eff none o = ⟨o, o⟩ :=
          if_neg (fun hin => hoeff hin.1)
        have hy := hnone (entryOf eff none o)
          (by rw [hl]; exact List.mem_map.mpr ⟨o, ho, rfl⟩)
        rw [hentry] at hy
        rw [hpr] at hpo
        exact absurd hy (by simpa [isRecvOp, isRecv] using hpo)
  have hstep : ∀ p : PifusInternalOperation → Bool,
      p = isRecv ∨ (p = fun op => !isRecv op) →
      eff.filter p <+: log.filter p →
      (eff ++ [e.origin]).filter p <+: log.filter p := by
    intro p hp hpre
    rw [List.filter_append]
    by_cases hpe : p e.origin = true
    · rw [List.filter_cons_of_pos hpe, List.filter_nil]
      refine prefix_snoc (h.nodup.filter _) hpre ?_ (hfront p hp hpe)
        (fun hin => hnew.2 (List.mem_filter.mp hin).1)
        (B := b.filter p)
      rw [hsplit, List.filter_append, List.filter_cons_of_pos hpe]
    · rw [List.filter_cons_of_neg hpe, List.filter_nil, List.append_nil]
      exact hpre
  refine ⟨hnew.1, hnew.2, h.serials, ⟨rest, hlog, ?_, ?_⟩, ?_,
    hstep _ (Or.inl rfl) h.recvs, hstep _ (Or.inr rfl) h.others⟩
  · rw [hmap]
    refine List.map_congr_left (fun o ho => ?_)
    unfold entryOf
    by_cases hoe : o = e.origin
    · rw [if_neg (fun hin => hnew.2 (hoe ▸ hin.1)),
        if_neg (fun hin => hin.2 (by rw [hoe]))]
    · congr 1
      simp [Ne.symm hoe, hoe]
  · intro o ho hin hne
    have hoe : o ≠ e.origin := fun heq => hne (by rw [heq])
    rcases List.mem_append.mp hin with hin | hin
    · exact hrecv o ho hin (by simp)
    · exact absurd (List.mem_singleton.mp hin) hoe
  · intro e' he'
    exact List.mem_append_left _ (h.gone e' he')

/-- **The front of the ring is erased** once its operation has taken
effect. -/
theorem erase (h : QueueInv log eff (e :: contents) erased mid)
    (heff : e.origin ∈ eff) (hmid : mid = none ∨ mid = some e.origin) :
    QueueInv log eff contents (erased ++ [e]) none := by
  obtain ⟨rest, hlog, hmap, hrecv⟩ := h.split
  obtain ⟨x, rest, rfl, hx, hcontents⟩ := List.map_eq_cons_iff.mp hmap.symm
  have hxe : x = e.origin := by
    rw [← hx, entryOf]
    split <;> rfl
  have hnot : ∀ o ∈ rest, mid ≠ some o := by
    intro o ho heq
    have hnd := h.nodup
    rw [hlog] at hnd
    rcases hmid with hmid | hmid
    · rw [hmid] at heq
      exact absurd heq (by simp)
    · rw [hmid] at heq
      have hox : o = x := (Option.some.inj heq).symm.trans hxe.symm
      exact (List.nodup_cons.mp (List.nodup_append.mp hnd).2.1).1 (hox ▸ ho)
  refine ⟨h.serials, ⟨rest, ?_, ?_, fun o ho hin _ => ?_⟩, ?_, h.recvs,
    h.others⟩
  · rw [hlog, List.map_append, List.map_singleton, hxe, List.append_assoc]
    rfl
  · rw [← hcontents]
    refine List.map_congr_left (fun o ho => ?_)
    unfold entryOf
    congr 1
    simp [hnot o ho]
  · exact hrecv o (List.mem_cons_of_mem _ ho) hin (hnot o ho)
  · intro e' he'
    rcases List.mem_append.mp he' with he' | he'
    · exact h.gone e' he'
    · obtain rfl := List.mem_singleton.mp he'
      exact heff

/-- **A receive in the middle is overwritten** once it has taken effect. -/
theorem patch (h : QueueInv log eff (l ++ e :: r) erased (some e.origin))
    (heff : e.origin ∈ eff) (hrecv : e.origin.code = .tcpRecv) :
    QueueInv log eff
      (l ++ { e with op := { e.op with code := .nop } } :: r) erased none := by
  obtain ⟨rest, hlog, hmap, hrecvs⟩ := h.split
  obtain ⟨a, b', hrest, hl, hb'⟩ := List.map_eq_append_iff.mp hmap.symm
  obtain ⟨x, b, rfl, hx, hr⟩ := List.map_eq_cons_iff.mp hb'
  have hxe : x = e.origin := by
    rw [← hx, entryOf]
    split <;> rfl
  have heop : e.op = e.origin := by
    rw [← hx, hxe, entryOf, if_neg (fun hin => hin.2 rfl)]
  have hnd : rest.Nodup := by
    have hnd := h.nodup
    rw [hlog] at hnd
    exact (List.nodup_append.mp hnd).2.1
  rw [hrest, hxe] at hnd
  obtain ⟨-, hndb, hab⟩ := List.nodup_append.mp hnd
  have hother : ∀ o ∈ rest, o ≠ e.origin →
      entryOf eff none o = entryOf eff (some e.origin) o := by
    intro o ho hne
    unfold entryOf
    congr 1
    simp [Ne.symm hne]
  refine ⟨h.serials, ⟨rest, hlog, ?_, fun o ho hin _ => ?_⟩, h.gone, h.recvs,
    h.others⟩
  · rw [hrest, List.map_append, List.map_cons, hxe]
    congr 1
    · rw [← hl]
      refine List.map_congr_left (fun o ho => (hother o ?_ ?_).symm)
      · rw [hrest]
        exact List.mem_append_left _ ho
      · exact fun heq => hab o ho e.origin List.mem_cons_self heq
    · congr 1
      · rw [heop, entryOf, if_pos ⟨heff, by simp⟩]
      · rw [← hr]
        refine List.map_congr_left (fun o ho => (hother o ?_ ?_).symm)
        · rw [hrest]
          simp [ho]
        · exact fun heq => (List.nodup_cons.mp hndb).1 (heq ▸ ho)
  · by_cases hoe : o = e.origin
    · rw [hoe]
      exact hrecv
    · exact hrecvs o ho hin (fun heq => hoe (Option.some.inj heq).symm)

end QueueInv

/-! ## The whole stack -/

/-- Where the program counter points: at the front of a ring, at its first
receive, or at an operation that has just taken effect. -/
def PcInv (s : StackState) (mid : TxPrio → Option PifusInternalOperation) :
    Prop :=
  match s.pc with
  | .outside => ∀ q, mid q = none
  | .peeking _ _ => ∀ q, mid q = none
  | .finding _ _ => ∀ q, mid q = none
  | .handling p cell recvScan _ => (∀ q, mid q = none)
    ∧ ∃ l e r, (s.queue p).contents = l ++ e :: r
      ∧ cell = (s.queue p).cell l.length
      ∧ if recvScan then isRecvOp e = true ∧ ∀ y ∈ l, isRecvOp y = false
        else l = [] ∧ s.lastPeek = some p
  | .erasing _ _ => ∃ p e r, s.lastPeek = some p
    ∧ (s.queue p).contents = e :: r ∧ e.origin ∈ s.effects p
    ∧ (mid p = none ∨ mid p = some e.origin) ∧ ∀ q, q ≠ p → mid q = none
  | .patching p cell _ => ∃ l e r, (s.queue p).contents = l ++ e :: r
    ∧ cell = (s.queue p).cell l.length ∧ mid p = some e.origin
    ∧ e.origin ∈ s.effects p ∧ e.origin.code = .tcpRecv
    ∧ ∀ q, q ≠ p → mid q = none

/-- **The invariant of the stack.** -/
structure StackInv (start s : StackState) : Prop where
  queues : ∃ mid, (∀ q, QueueInv (s.log q) (s.effects q) (s.queue q).contents
    (s.erased q) (mid q)) ∧ PcInv s mid
  completions : s.completions = (s.processed.filter
    (fun r => r.counts && r.result ≠ .async)).map Processed.completion
  dequeued : ∀ k, s.dequeuedOps k = start.dequeuedOps k + UInt64.ofNat
    (s.processed.countP (fun r => r.counts && r.entry.op.socket = k))

variable {start s t : StackState}

theorem buf_of_contents {rb : RingBuffer TxEntry} {l r : List TxEntry}
    {e : TxEntry} (h : rb.contents = l ++ e :: r) :
    rb.buf (rb.cell l.length) = e := by
  have hlt : l.length < rb.contents.length := by rw [h]; simp
  rw [← RingBuffer.getElem_contents hlt]
  simp [h]

/-- What is appended to a ring does not move what the program counter points
at. -/
theorem PcInv.append {mid : TxPrio → Option PifusInternalOperation}
    (h : PcInv s mid) (hpc : t.pc = s.pc) (hpeek : t.lastPeek = s.lastPeek)
    (heff : ∀ q, t.effects q = s.effects q)
    (hqueue : ∀ q, ∃ new, (t.queue q).contents = (s.queue q).contents ++ new
      ∧ ∀ k, (t.queue q).cell k = (s.queue q).cell k) : PcInv t mid := by
  unfold PcInv at h ⊢
  rw [hpc]
  split at h
  · exact h
  · exact h
  · exact h
  · rename_i p cell recvScan d _
    obtain ⟨hmid, l, e, r, hcontents, hcell, hkind⟩ := h
    obtain ⟨new, hnew, hcells⟩ := hqueue p
    refine ⟨hmid, l, e, r ++ new, ?_, ?_, ?_⟩
    · rw [hnew, hcontents]
      simp
    · rw [hcells]
      exact hcell
    · rw [hpeek]
      exact hkind
  · obtain ⟨p, e, r, hlast, hcontents, he, hmid, hothers⟩ := h
    obtain ⟨new, hnew, -⟩ := hqueue p
    refine ⟨p, e, r ++ new, hpeek.trans hlast, ?_, ?_, hmid, hothers⟩
    · rw [hnew, hcontents, List.cons_append]
    · rw [heff]
      exact he
  · rename_i p cell d _
    obtain ⟨l, e, r, hcontents, hcell, hmid, he, hcode, hothers⟩ := h
    obtain ⟨new, hnew, hcells⟩ := hqueue p
    refine ⟨l, e, r ++ new, ?_, ?_, hmid, ?_, hcode, hothers⟩
    · rw [hnew, hcontents]
      simp
    · rw [hcells]
      exact hcell
    · rw [heff]
      exact he

/-- **A put of a prio thread** keeps the invariant, wherever the stack
stands. -/
theorem StackInv.put (h : StackInv start s) (p : TxPrio)
    (code : PifusOperationCode) (socket : ℕ) :
    StackInv start (s.put p code socket) := by
  obtain ⟨⟨mid, hqueues, hpc⟩, hcompletions, hdequeued⟩ := h
  dsimp only [StackState.put]
  split
  · rename_i ring hput
    have hcontents := RingBuffer.contents_put hput
    refine ⟨⟨mid, fun q => ?_, hpc.append rfl rfl (fun _ => rfl) (fun q => ?_)⟩,
      hcompletions, hdequeued⟩
    · by_cases hq : q = p
      · subst hq
        show QueueInv (Function.update s.log q _ q) _
          (Function.update s.queue q ring q).contents _ _
        rw [Function.update_self, Function.update_self, hcontents]
        exact (hqueues q).put rfl
      · show QueueInv (Function.update s.log p _ q) _
          (Function.update s.queue p ring q).contents _ _
        rw [Function.update_of_ne hq, Function.update_of_ne hq]
        exact hqueues q
    · show ∃ new, (Function.update s.queue p ring q).contents = _ ++ new
        ∧ ∀ k, (Function.update s.queue p ring q).cell k = _
      by_cases hq : q = p
      · subst hq
        rw [Function.update_self]
        exact ⟨_, hcontents, fun k => RingBuffer.cell_put hput⟩
      · rw [Function.update_of_ne hq]
        exact ⟨[], (List.append_nil _).symm, fun _ => rfl⟩
  · exact ⟨⟨mid, hqueues, hpc⟩, hcompletions, hdequeued⟩

theorem loopHead_cases (d : ℕ) :
    StackState.loopHead d = .outside
      ∨ StackState.loopHead d = .peeking .high d := by
  unfold StackState.loopHead
  split
  · exact Or.inr rfl
  · exact Or.inl rfl

theorem pcInv_loopHead {d : ℕ} (h : s.pc = StackState.loopHead d)
    {mid : TxPrio → Option PifusInternalOperation} (hmid : ∀ q, mid q = none) :
    PcInv s mid := by
  unfold PcInv
  rcases loopHead_cases d with hd | hd <;> rw [h, hd] <;> exact hmid

theorem StackInv.peek (h : StackInv start s) {p : TxPrio} {d : ℕ}
    (hpc : s.pc = .peeking p d) : StackInv start (s.peek p d) := by
  obtain ⟨⟨mid, hqueues, hmid⟩, hcompletions, hdequeued⟩ := h
  rw [PcInv, hpc] at hmid
  unfold StackState.peek
  split
  · rename_i cell hpeek
    obtain ⟨hcell, hhead⟩ := RingBuffer.peek_eq_some hpeek
    obtain ⟨r, hr⟩ := List.head?_eq_some_iff.mp hhead
    exact ⟨⟨mid, hqueues, hmid, [], _, r, hr, hcell, rfl, rfl⟩, hcompletions,
      hdequeued⟩
  · refine ⟨⟨mid, hqueues, ?_⟩, hcompletions, hdequeued⟩
    cases p <;> exact hmid

theorem StackInv.find (h : StackInv start s) {p : TxPrio} {d : ℕ}
    (hpc : s.pc = .finding p d) : StackInv start (s.find p d) := by
  obtain ⟨⟨mid, hqueues, hmid⟩, hcompletions, hdequeued⟩ := h
  rw [PcInv, hpc] at hmid
  unfold StackState.find
  split
  · rename_i cell hfind
    obtain ⟨l, e, r, hcontents, hcell, -, he, hl⟩ :=
      RingBuffer.find_eq_some hfind
    exact ⟨⟨mid, hqueues, hmid, l, e, r, hcontents, hcell, he, hl⟩,
      hcompletions, hdequeued⟩
  · refine ⟨⟨mid, hqueues, ?_⟩, hcompletions, hdequeued⟩
    cases p <;> exact hmid

theorem StackInv.erase (h : StackInv start s) {p : TxPrio} {counts : Bool}
    {d : ℕ} (hpc : s.pc = .erasing counts d) (hlast : s.lastPeek = some p) :
    StackInv start (s.erase p counts d) := by
  obtain ⟨⟨mid, hqueues, hmid⟩, hcompletions, hdequeued⟩ := h
  rw [PcInv, hpc] at hmid
  obtain ⟨p', e, r, hlast', hcontents, he, hmidp, hothers⟩ := hmid
  rw [hlast] at hlast'
  obtain rfl := Option.some.inj hlast'
  have hne : (s.queue p).contents ≠ [] := by simp [hcontents]
  obtain ⟨ring, herase, htail⟩ := RingBuffer.exists_eraseFirst hne
  rw [hcontents] at htail
  obtain ⟨hbuf, hring⟩ := List.cons.inj htail
  unfold StackState.erase
  refine ⟨⟨fun _ => none, fun q => ?_, pcInv_loopHead rfl (fun _ => rfl)⟩,
    hcompletions, hdequeued⟩
  by_cases hq : q = p
  · subst hq
    show QueueInv _ _ (Function.update s.queue q _ q).contents
      (Function.update s.erased q _ q) none
    rw [Function.update_self, Function.update_self, herase, ← hbuf]
    have hinv := hqueues q
    rw [hcontents, hring] at hinv
    exact hinv.erase he hmidp
  · show QueueInv _ _ (Function.update s.queue p _ q).contents
      (Function.update s.erased p _ q) none
    rw [Function.update_of_ne hq, Function.update_of_ne hq, ← hothers q hq]
    exact hqueues q

theorem StackInv.patch (h : StackInv start s) {p : TxPrio} {cell d : ℕ}
    (hpc : s.pc = .patching p cell d) : StackInv start (s.patch p cell d) := by
  obtain ⟨⟨mid, hqueues, hmid⟩, hcompletions, hdequeued⟩ := h
  rw [PcInv, hpc] at hmid
  obtain ⟨l, e, r, hcontents, hcell, hmidp, he, hcode, hothers⟩ := hmid
  have hbuf := buf_of_contents hcontents
  rw [← hcell] at hbuf
  unfold StackState.patch
  refine ⟨⟨fun _ => none, fun q => ?_, pcInv_loopHead rfl (fun _ => rfl)⟩,
    hcompletions, hdequeued⟩
  by_cases hq : q = p
  · subst hq
    show QueueInv _ _ (Function.update s.queue q _ q).contents _ none
    have hinv := hqueues q
    rw [hcontents, hmidp] at hinv
    have hlt : l.length < (s.queue q).contents.length := by
      rw [hcontents]; simp
    rw [Function.update_self, hbuf, hcell, RingBuffer.contents_store hlt,
      hcontents, List.set_append_right _ _ (le_refl _), Nat.sub_self,
      List.set_cons_zero]
    exact hinv.patch he hcode
  · show QueueInv _ _ (Function.update s.queue p _ q).contents _ none
    rw [Function.update_of_ne hq, ← hothers q hq]
    exact hqueues q

/-- What a call of `process_tx_op` adds to the operations that took
effect. -/
theorem effects_process {r : Processed} {p : TxPrio} (q : TxPrio)
    (ht : t.processed = s.processed ++ [r]) (hp : r.prio = p) :
    t.effects q = s.effects q
      ++ (if r.tookEffect = true ∧ q = p then [r.entry.origin] else []) := by
  unfold StackState.effects
  rw [ht, List.filter_append, List.map_append]
  congr 1
  by_cases htook : r.tookEffect = true
  · by_cases hq : q = p
    · rw [if_pos ⟨htook, hq⟩, List.filter_cons_of_pos (by simp [htook, hp, hq])]
      rfl
    · rw [if_neg (fun h => hq h.2), List.filter_cons_of_neg
        (by simp [hp, Ne.symm hq])]
      rfl
  · rw [if_neg (fun h => htook h.1), List.filter_cons_of_neg (by simp [htook])]
    rfl

/-- **The entry that `process_tx_op` is called with** takes effect, unless it
is asked to try again or is what the recv scan left behind. -/
theorem queues_process {p : TxPrio} {l r : List TxEntry} {e : TxEntry}
    (result : PifusResultCode)
    (h : ∀ q, QueueInv (s.log q) (s.effects q) (s.queue q).contents
      (s.erased q) none)
    (hcontents : (s.queue p).contents = l ++ e :: r)
    (hfirst : l = [] ∨ isRecvOp e = true ∧ ∀ y ∈ l, isRecvOp y = false)
    (ht : t.processed = s.processed ++ [⟨p, e, result⟩]) (hlog : t.log = s.log)
    (hqueue : t.queue = s.queue) (herased : t.erased = s.erased) :
    result = .tryAgain ∧ (∀ q, QueueInv (t.log q) (t.effects q)
        (t.queue q).contents (t.erased q) none)
    ∨ result ≠ .tryAgain ∧ e.origin ∈ t.effects p
      ∧ ((Processed.tookEffect ⟨p, e, result⟩ = true
          ∧ ∀ q, QueueInv (t.log q) (t.effects q) (t.queue q).contents
            (t.erased q) (if q = p then some e.origin else none))
        ∨ e.op.code = .nop ∧ isRecvOp e = false
          ∧ ∀ q, QueueInv (t.log q) (t.effects q) (t.queue q).contents
            (t.erased q) none) := by
  have heff := fun q => effects_process (p := p) q ht rfl
  rw [hlog, hqueue, herased]
  by_cases htry : result = .tryAgain
  · refine Or.inl ⟨htry, fun q => ?_⟩
    have hnot : Processed.tookEffect ⟨p, e, result⟩ = false := by
      simp [Processed.tookEffect, htry]
    rw [heff q, hnot, if_neg (by simp), List.append_nil]
    exact h q
  · right
    have hmem : e ∈ (s.queue p).contents := by rw [hcontents]; simp
    refine ⟨htry, ?_⟩
    rcases (h p).entry_cases hmem (by simp) with ⟨hop, -⟩ | ⟨hop, hin, hrecv⟩
    · have htook : Processed.tookEffect ⟨p, e, result⟩ = true := by
        simp [Processed.tookEffect, htry, hop]
      have hfirst' : l = [] ∨ isRecv e.origin = true
          ∧ ∀ y ∈ l, isRecvOp y = false := by
        rw [isRecv, ← hop]
        exact hfirst
      obtain ⟨-, -, hinv⟩ :=
        (h p).effect hcontents (by rw [hop]) hfirst'
      refine ⟨?_, Or.inl ⟨htook, fun q => ?_⟩⟩
      · rw [heff p, if_pos ⟨htook, rfl⟩]
        simp
      · by_cases hq : q = p
        · subst hq
          rw [heff q, if_pos ⟨htook, rfl⟩, if_pos rfl]
          exact hinv
        · rw [heff q, if_neg (fun hc => hq hc.2), if_neg hq, List.append_nil]
          exact h q
    · have hnot : Processed.tookEffect ⟨p, e, result⟩ = false := by
        simp [Processed.tookEffect, hop, hrecv]
      refine ⟨?_, Or.inr ⟨by rw [hop], by simp [isRecvOp, hop], fun q => ?_⟩⟩
      · rw [heff p, hnot, if_neg (by simp), List.append_nil]
        exact hin
      · rw [heff q, hnot, if_neg (by simp), List.append_nil]
        exact h q

/-- **The accounts** of results and of dequeued operations, after a call of
`process_tx_op`. -/
theorem accounts_process {r : Processed}
    (hcompletions : s.completions = (s.processed.filter
      (fun r => r.counts && r.result ≠ .async)).map Processed.completion)
    (hdequeued : ∀ k, s.dequeuedOps k = start.dequeuedOps k + UInt64.ofNat
      (s.processed.countP (fun r => r.counts && r.entry.op.socket = k)))
    (ht : t.processed = s.processed ++ [r])
    (htc : t.completions = s.completions
      ++ (if r.counts = true ∧ r.result ≠ .async then [r.completion] else []))
    (htd : ∀ k, t.dequeuedOps k = s.dequeuedOps k
      + (if r.counts = true ∧ r.entry.op.socket = k then 1 else 0)) :
    t.completions = (t.processed.filter
        (fun r => r.counts && r.result ≠ .async)).map Processed.completion
    ∧ ∀ k, t.dequeuedOps k = start.dequeuedOps k + UInt64.ofNat
      (t.processed.countP (fun r => r.counts && r.entry.op.socket = k)) := by
  rw [ht]
  constructor
  · rw [htc, hcompletions, List.filter_append, List.map_append]
    congr 1
    by_cases hr : r.counts = true ∧ r.result ≠ .async
    · rw [if_pos hr, List.filter_cons_of_pos (by simpa using hr)]
      rfl
    · rw [if_neg hr, List.filter_cons_of_neg (by simpa using hr)]
      rfl
  · intro k
    rw [htd, hdequeued, List.countP_append, List.countP_singleton,
      UInt64.ofNat_add, UInt64.add_assoc]
    congr 2
    by_cases hr : r.counts = true ∧ r.entry.op.socket = k
    · rw [if_pos hr, if_pos (by simpa using hr)]
      rfl
    · rw [if_neg hr, if_neg (by simpa using hr)]
      rfl

/-- A `NOP` at the front, put as one or left behind by the recv scan. -/
theorem StackInv.handle_nop (h : StackInv start s) {p : TxPrio}
    {e : TxEntry} {r : List TxEntry} {result : PifusResultCode} {d : ℕ}
    (hqueues : ∀ q, QueueInv (s.log q) (s.effects q) (s.queue q).contents
      (s.erased q) none)
    (hcontents : (s.queue p).contents = e :: r) (hlast : s.lastPeek = some p)
    (hnop : e.op.code = .nop) (htry : result ≠ .tryAgain) :
    StackInv start { s with
      processed := s.processed ++ [⟨p, e, result⟩], pc := .erasing false d } := by
  have hcounts : Processed.counts ⟨p, e, result⟩ = false := by
    simp [Processed.counts, hnop]
  obtain ⟨hcomp, hdeq⟩ := accounts_process (r := ⟨p, e, result⟩)
    (t := { s with
      processed := s.processed ++ [⟨p, e, result⟩], pc := .erasing false d })
    h.completions h.dequeued rfl (by simp [hcounts]) (by simp [hcounts])
  rcases queues_process (l := []) (t := { s with
      processed := s.processed ++ [⟨p, e, result⟩], pc := .erasing false d })
      result hqueues hcontents (Or.inl rfl) rfl rfl rfl rfl with
    ⟨heq, -⟩ | ⟨-, hin, ⟨-, hq⟩ | ⟨-, -, hq⟩⟩
  · exact absurd heq htry
  · exact ⟨⟨_, hq, p, e, r, hlast, hcontents, hin, Or.inr (if_pos rfl),
      fun q hqp => if_neg hqp⟩, hcomp, hdeq⟩
  · exact ⟨⟨_, hq, p, e, r, hlast, hcontents, hin, Or.inl rfl,
      fun _ _ => rfl⟩, hcomp, hdeq⟩

/-- An entry that is to be tried again: look for a receive, or wait for the next
iteration. -/
theorem StackInv.handle_tryAgain (h : StackInv start s) {p : TxPrio}
    {l r : List TxEntry} {e : TxEntry}
    (hqueues : ∀ q, QueueInv (s.log q) (s.effects q) (s.queue q).contents
      (s.erased q) none)
    (hcontents : (s.queue p).contents = l ++ e :: r)
    (hfirst : l = [] ∨ isRecvOp e = true ∧ ∀ y ∈ l, isRecvOp y = false)
    (ht : t.processed = s.processed ++ [⟨p, e, .tryAgain⟩])
    (hlog : t.log = s.log) (hqueue : t.queue = s.queue)
    (herased : t.erased = s.erased) (hcompletions : t.completions = s.completions)
    (hdequeued : t.dequeuedOps = s.dequeuedOps)
    (hpc : PcInv t (fun _ => none)) : StackInv start t := by
  have hcounts : Processed.counts ⟨p, e, .tryAgain⟩ = false := by
    simp [Processed.counts, Processed.tookEffect]
  obtain ⟨hcomp, hdeq⟩ := accounts_process h.completions h.dequeued ht
    (by simp [hcounts, hcompletions]) (by simp [hcounts, hdequeued])
  rcases queues_process .tryAgain hqueues hcontents hfirst ht hlog hqueue
    herased with ⟨-, hq⟩ | ⟨hne, -⟩
  · exact ⟨⟨fun _ => none, hq, hpc⟩, hcomp, hdeq⟩
  · exact absurd rfl hne

/-- An entry that is through: it is counted, and its result is enqueued unless
it comes later. -/
theorem StackInv.handle_done (h : StackInv start s) {p : TxPrio}
    {l r : List TxEntry} {e : TxEntry} {result : PifusResultCode}
    (hqueues : ∀ q, QueueInv (s.log q) (s.effects q) (s.queue q).contents
      (s.erased q) none)
    (hcontents : (s.queue p).contents = l ++ e :: r)
    (hfirst : l = [] ∨ isRecvOp e = true ∧ ∀ y ∈ l, isRecvOp y = false)
    (hcode : e.op.code ≠ .nop) (htry : result ≠ .tryAgain)
    (ht : t.processed = s.processed ++ [⟨p, e, result⟩])
    (hlog : t.log = s.log) (hqueue : t.queue = s.queue)
    (herased : t.erased = s.erased)
    (hcompletions : t.completions = if result ≠ .async then
      s.completions ++ [⟨e.op.socket, e.op.code, result⟩] else s.completions)
    (hdequeued : t.dequeuedOps = Function.update s.dequeuedOps e.op.socket
      (s.dequeuedOps e.op.socket + 1))
    (hpc : e.op.code = e.origin.code → e.origin ∈ t.effects p →
      PcInv t (fun q => if q = p then some e.origin else none)) :
    StackInv start t := by
  rcases queues_process result hqueues hcontents hfirst ht hlog hqueue herased
    with ⟨heq, -⟩ | ⟨-, hin, ⟨htook, hq⟩ | ⟨heq, -⟩⟩
  · exact absurd heq htry
  · have hcounts : Processed.counts ⟨p, e, result⟩ = true := by
      simp [Processed.counts, htook, hcode]
    obtain ⟨hcomp, hdeq⟩ := accounts_process h.completions h.dequeued ht
      (by
        rw [hcompletions]
        by_cases has : result = .async <;>
          simp [hcounts, has, Processed.completion])
      (fun k => by
        rw [hdequeued]
        by_cases hk : k = e.op.socket
        · subst hk
          simp [hcounts]
        · simp [Function.update_of_ne hk, Ne.symm hk])
    have hop : e.op.code = e.origin.code := by
      simp only [Processed.tookEffect, Bool.and_eq_true,
        decide_eq_true_eq] at htook
      exact htook.2
    exact ⟨⟨_, hq, hpc hop hin⟩, hcomp, hdeq⟩
  · exact absurd heq hcode

/-- **`handle_operation`** keeps the invariant. -/
theorem StackInv.handle (h : StackInv start s) {p : TxPrio} {cell d : ℕ}
    {recvScan : Bool} {result : PifusResultCode}
    (hpc : s.pc = .handling p cell recvScan d)
    (hproc : Processes ((s.queue p).buf cell).op.code result) :
    StackInv start (s.handle p cell recvScan d result) := by
  obtain ⟨mid, hqueues, hmid⟩ := h.queues
  rw [PcInv, hpc] at hmid
  obtain ⟨hnone, l, e, r, hcontents, hcell, hkind⟩ := hmid
  have hqueues' : ∀ q, QueueInv (s.log q) (s.effects q) (s.queue q).contents
      (s.erased q) none := fun q => hnone q ▸ hqueues q
  have hbuf := buf_of_contents hcontents
  rw [← hcell] at hbuf
  rw [hbuf] at hproc
  have hfirst : l = [] ∨ isRecvOp e = true ∧ ∀ y ∈ l, isRecvOp y = false := by
    cases recvScan with
    | true => exact Or.inr hkind
    | false => exact Or.inl hkind.1
  dsimp only [StackState.handle]
  rw [hbuf]
  by_cases hnop : e.op.code = .nop ∧ recvScan = false
  · rw [if_pos hnop]
    rw [hnop.2] at hkind
    obtain ⟨rfl, hlast⟩ := hkind
    refine h.handle_nop hqueues' hcontents hlast hnop.1 ?_
    rw [hproc.1 (Or.inl hnop.1)]
    simp
  · rw [if_neg hnop]
    by_cases htry : result = .tryAgain
    · subst htry
      rw [if_pos rfl]
      split
      · exact h.handle_tryAgain hqueues' hcontents hfirst rfl rfl rfl rfl rfl rfl
          (fun _ => rfl)
      · exact h.handle_tryAgain hqueues' hcontents hfirst rfl rfl rfl rfl rfl rfl
          (fun _ => rfl)
    · rw [if_neg htry]
      have hcode : e.op.code ≠ .nop := by
        intro hc
        cases recvScan with
        | true => simp [isRecvOp, hc] at hkind
        | false => exact hnop ⟨hc, rfl⟩
      refine h.handle_done hqueues' hcontents hfirst hcode htry rfl rfl rfl rfl
        rfl rfl (fun hop hin => ?_)
      cases recvScan with
      | true =>
        obtain ⟨hrecv, -⟩ := hkind
        refine ⟨l, e, r, hcontents, hcell, if_pos rfl, hin, ?_,
          fun q hqp => if_neg hqp⟩
        rw [← hop]
        simpa [isRecvOp] using hrecv
      | false =>
        obtain ⟨rfl, hlast⟩ := hkind
        exact ⟨p, e, r, hlast, hcontents, hin, Or.inr (if_pos rfl),
          fun q hqp => if_neg hqp⟩

/-- **Every step keeps the invariant.** -/
theorem StackInv.step {ev : StackEvent} (h : StackInv start s)
    (hs : StackStep s ev t) : StackInv start t := by
  unfold StackStep at hs
  cases ev with
  | put p code socket =>
    obtain rfl := Option.some.inj hs
    exact h.put p code socket
  | call =>
    rw [stackStep] at hs
    split at hs
    · rename_i hpc
      obtain rfl := Option.some.inj hs
      obtain ⟨⟨mid, hqueues, hmid⟩, hcompletions, hdequeued⟩ := h
      rw [PcInv, hpc] at hmid
      exact ⟨⟨mid, hqueues, pcInv_loopHead (d := 0) rfl hmid⟩, hcompletions,
        hdequeued⟩
    · exact absurd hs (by simp)
  | tick =>
    rw [stackStep] at hs
    split at hs
    · rename_i p d hpc
      obtain rfl := Option.some.inj hs
      exact h.peek hpc
    · rename_i p d hpc
      obtain rfl := Option.some.inj hs
      exact h.find hpc
    · rename_i counts d hpc
      obtain ⟨p, hlast, rfl⟩ := Option.map_eq_some_iff.mp hs
      exact h.erase hpc hlast
    · rename_i p cell d hpc
      obtain rfl := Option.some.inj hs
      exact h.patch hpc
    · exact absurd hs (by simp)
  | process result =>
    rw [stackStep] at hs
    split at hs
    · rename_i p cell recvScan d hpc
      split at hs
      · rename_i hproc
        obtain rfl := Option.some.inj hs
        exact h.handle hpc hproc
      · exact absurd hs (by simp)
    · exact absurd hs (by simp)

theorem stackInv_initial (h : start.Initial) : StackInv start start := by
  refine ⟨⟨fun _ => none, fun q => ⟨h.serials q, ⟨start.log q, ?_, ?_, ?_⟩,
    ?_, ?_, ?_⟩, ?_⟩, ?_, fun k => ?_⟩
  · rw [h.erased q]
    rfl
  · rw [h.contents q]
    refine List.map_congr_left (fun op _ => ?_)
    rw [entryOf, if_neg]
    simp [StackState.effects, h.processed]
  · simp [StackState.effects, h.processed]
  · simp [h.erased q]
  · simp [StackState.effects, h.processed]
  · simp [StackState.effects, h.processed]
  · rw [PcInv, h.pc]
    exact fun _ => rfl
  · rw [h.completions, h.processed]
    rfl
  · rw [h.processed]
    simp

/-- **The stack executes every operation once, in order.** In every run, for
each of the three rings: no operation takes effect twice; what has been erased
has taken effect; and of every socket the receives, and the other operations,
took effect in the order they were put. Only an entry that is processed as
what it was put as produces a completion or counts as dequeued, so one that
the recv scan has rewritten does neither. -/
theorem stack_executes_once_in_order {es : List StackEvent}
    (hstart : start.Initial) (h : Run StackStep start es s) :
    (∀ q, (s.effects q).Nodup
      ∧ (∀ e ∈ s.erased q, e.origin ∈ s.effects q)
      ∧ ∀ k, (s.effects q).filter (fun op => isRecv op && op.socket = k)
            <+: (s.log q).filter (fun op => isRecv op && op.socket = k)
        ∧ (s.effects q).filter (fun op => !isRecv op && op.socket = k)
            <+: (s.log q).filter (fun op => !isRecv op && op.socket = k))
    ∧ s.completions = (s.processed.filter
        (fun r => r.counts && r.result ≠ .async)).map Processed.completion
    ∧ ∀ k, s.dequeuedOps k = start.dequeuedOps k + UInt64.ofNat
        (s.processed.countP (fun r => r.counts && r.entry.op.socket = k)) := by
  have hinv : StackInv start s := h.invariant (StackInv start)
    (stackInv_initial hstart) (fun _ _ _ hI hs => hI.step hs)
  obtain ⟨⟨mid, hqueues, -⟩, hcompletions, hdequeued⟩ := hinv
  refine ⟨fun q => ⟨(hqueues q).nodup_effects, (hqueues q).gone, fun k => ?_⟩,
    hcompletions, hdequeued⟩
  have hrecvs := (hqueues q).recvs.filter (fun op => op.socket = k)
  have hothers := (hqueues q).others.filter (fun op => op.socket = k)
  rw [List.filter_filter, List.filter_filter] at hrecvs hothers
  simp only [Bool.and_comm (decide _)] at hrecvs hothers
  exact ⟨hrecvs, hothers⟩

/-- A write that has waited for 64 iterations, and a receive behind it that
the recv scan executes first. -/
theorem stack_executes_once_in_order_recvScan :
    ∃ s : StackState, s.effects .low = [⟨.tcpRecv, 0, 1⟩]
      ∧ (s.effects .low).Nodup := by
  let op : PifusInternalOperation := ⟨.nop, 0, 0⟩
  let start : StackState :=
    ⟨fun _ => .create (fun _ => ⟨op, op⟩) txQueueSize txQueueSize_pos
        txQueueSize_lt, none, maxFullSndBufIterations, fun _ => 0, .outside,
      fun _ => [], [], fun _ => [], []⟩
  have hstart : start.Initial :=
    ⟨rfl, rfl, rfl, fun _ => rfl, fun _ => rfl, fun _ => rfl⟩
  have hs : (stackRun start [.put .low .tcpWrite 0, .put .low .tcpRecv 0, .call,
      .tick, .tick, .tick, .process .tryAgain, .tick, .tick, .tick,
      .process .async, .tick]).map (fun s => s.effects .low)
      = some [⟨.tcpRecv, 0, 1⟩] := by decide +kernel
  obtain ⟨s, hrun, heff⟩ := Option.map_eq_some_iff.mp hs
  exact ⟨s, heff, ((stack_executes_once_in_order hstart
    (run_of_stackRun hrun)).1 .low).1⟩
