import Pifus.Stack
import Pifus.Util.Transition

/-!
# Peek, find and erase over three rings

`pifus_priority_aware_ring_buffer_peek` looks at one ring after the other and
remembers in `last_peek` the one it found an element in;
`pifus_priority_aware_ring_buffer_erase_first` erases from the ring it remembers.
The prio threads put into the rings all the while, also into one that the peek
has just found empty. `lwip_loop_iteration` is one consumer that goes about it
like this (`Pifus.Stack`); here it is any that erases what it has peeked, and in
between looks up and rewrites elements as it likes.

A step is a put, the peek of one ring, a round of the loop of `find`, an
assignment through the pointer it returns, or an erase. An element carries, next
to its value, what was put and the how-manieth of its ring it was. This is what
it is recognised by, as a rewrite changes the value alone.
-/

variable {α : Type*}

/-- An element of a ring: its value as it stands there, and what was put, with
its number among the elements of the ring. -/
structure Stamped (α : Type*) where
  value : α
  origin : α × ℕ

/-- The rings that are looked at before this one. -/
def TxPrio.above : TxPrio → List TxPrio
  | high => []
  | medium => [high]
  | low => [high, medium]

theorem TxPrio.above_of_next {p q : TxPrio} (h : p.next = some q) :
    q.above = p.above ++ [p] := by
  cases p <;> cases q <;> simp_all [TxPrio.next, TxPrio.above]

/-- What a `peek` that was successful has returned: a pointer to a cell of a
ring. -/
structure PeekResult (α : Type*) where
  prio : TxPrio
  cell : ℕ
  /-- The element in the cell, as it was then. -/
  element : Stamped α

/-- Where the consumer stands. -/
inductive DispatchPc (α : Type*)
  /-- Nothing is peeked. -/
  | outside
  /-- In front of the `peek` of a ring. -/
  | peeking (prio : TxPrio)
  /-- Behind a `peek` that was successful. -/
  | peeked (peek : PeekResult α)
  /-- In the loop of `find` over a ring, `tail` being its local variable. -/
  | finding (peek : PeekResult α) (satisfies : α → Bool) (prio : TxPrio)
      (tail : ℕ)
  /-- `find` has returned a pointer to a cell of a ring. -/
  | found (peek : PeekResult α) (prio : TxPrio) (cell : ℕ)

/-- The element that was peeked and not erased yet. -/
def DispatchPc.peek : DispatchPc α → Option (PeekResult α)
  | .outside | .peeking _ => none
  | .peeked peek | .finding peek _ _ _ | .found peek _ _ => some peek

/-- `struct pifus_priority_aware_ring_buffer` with its consumer, and the history
of what was put, examined and erased. -/
structure DispatchState (α : Type*) where
  queue : TxPrio → RingBuffer (Stamped α)
  lastPeek : Option TxPrio
  pc : DispatchPc α
  /-- The elements that were in a ring at the start or were put into it, as they
  were then, oldest first. -/
  log : TxPrio → List α
  /-- The elements erased from a ring, oldest first. -/
  erased : TxPrio → List (Stamped α)
  /-- The rings that the last call of `peek` has examined, and what was in each
  when it did. -/
  examined : List (TxPrio × List (Stamped α))

/-- What can happen next. -/
inductive DispatchEvent (α : Type*)
  /-- A prio thread puts an element into a ring. -/
  | put (prio : TxPrio) (el : α)
  /-- The consumer calls `pifus_priority_aware_ring_buffer_peek`. -/
  | peek
  /-- The consumer calls `pifus_priority_aware_ring_buffer_find`. -/
  | find (satisfies : α → Bool)
  /-- The consumer takes the next step in a call. -/
  | tick
  /-- The consumer rewrites the element that `find` has returned. -/
  | rewrite (value : α)
  /-- The consumer leaves it as it is. -/
  | leave
  /-- The consumer calls `pifus_priority_aware_ring_buffer_erase_first`. -/
  | erase

namespace DispatchState

/-- `pifus_internal_operation_ring_buffer_put` of a prio thread; a full ring is
left as it is. -/
def put (s : DispatchState α) (prio : TxPrio) (el : α) : DispatchState α :=
  match (s.queue prio).put ⟨el, el, (s.log prio).length⟩ with
  | some ring => { s with
      queue := Function.update s.queue prio ring
      log := Function.update s.log prio (s.log prio ++ [el]) }
  | none => s

/-- The `peek` of one ring. -/
def examine (s : DispatchState α) (prio : TxPrio) : DispatchState α :=
  let examined := s.examined ++ [(prio, (s.queue prio).contents)]
  match (s.queue prio).peek with
  | some cell => { s with
      lastPeek := some prio
      pc := .peeked ⟨prio, cell, (s.queue prio).buf cell⟩
      examined := examined }
  | none => { s with
      pc := prio.next.elim .outside .peeking, examined := examined }

/-- A round of the loop of `find` over one ring. -/
def scan (s : DispatchState α) (peek : PeekResult α) (satisfies : α → Bool)
    (prio : TxPrio) (tail : ℕ) : DispatchState α :=
  let ring := s.queue prio
  if ring.head ≠ tail then
    if satisfies (ring.buf tail).value then
      { s with pc := .found peek prio tail }
    else { s with pc := .finding peek satisfies prio (ring.next tail) }
  else { s with
    pc := prio.next.elim (.peeked peek)
      (fun p => .finding peek satisfies p (s.queue p).tail) }

/-- An assignment through a pointer into a ring. -/
def rewrite (s : DispatchState α) (peek : PeekResult α) (prio : TxPrio)
    (cell : ℕ) (value : α) : DispatchState α :=
  { s with
    queue := Function.update s.queue prio ((s.queue prio).store cell
      { (s.queue prio).buf cell with value := value })
    pc := .peeked peek }

/-- `pifus_priority_aware_ring_buffer_erase_first`; an empty ring is left as it
is. -/
def erase (s : DispatchState α) (prio : TxPrio) : DispatchState α :=
  match (s.queue prio).eraseFirst with
  | some ring => { s with
      queue := Function.update s.queue prio ring
      pc := .outside
      erased := Function.update s.erased prio
        (s.erased prio ++ [(s.queue prio).buf (s.queue prio).tail]) }
  | none => { s with pc := .outside }

end DispatchState

/-- **A step of the consumer or of a prio thread.** -/
def dispatchStep (s : DispatchState α) :
    DispatchEvent α → Option (DispatchState α)
  | .put prio el => some (s.put prio el)
  | .peek =>
    match s.pc with
    | .outside | .peeked _ => some { s with
        pc := .peeking .high, examined := [] }
    | _ => none
  | .find satisfies =>
    match s.pc with
    | .peeked peek => some { s with
        pc := .finding peek satisfies .high (s.queue .high).tail }
    | _ => none
  | .tick =>
    match s.pc with
    | .peeking prio => some (s.examine prio)
    | .finding peek satisfies prio tail =>
      some (s.scan peek satisfies prio tail)
    | _ => none
  | .rewrite value =>
    match s.pc with
    | .found peek prio cell => some (s.rewrite peek prio cell value)
    | _ => none
  | .leave =>
    match s.pc with
    | .found peek _ _ => some { s with pc := .peeked peek }
    | _ => none
  | .erase =>
    match s.pc with
    | .peeked _ => s.lastPeek.map s.erase
    | _ => none

/-- The steps as a relation. -/
def DispatchStep (s : DispatchState α) (e : DispatchEvent α)
    (t : DispatchState α) : Prop :=
  dispatchStep s e = some t

/-! ## Rings that grow -/

namespace RingBuffer

variable {rb rb' : RingBuffer (Stamped α)} {el : Stamped α} {k : ℕ}

/-- **The elements of the ring are where they were**, and others may be behind
them. -/
structure Grows (rb rb' : RingBuffer (Stamped α)) : Prop where
  endIndex : rb'.endIndex = rb.endIndex
  tail : rb'.tail = rb.tail
  origins : rb.contents.map Stamped.origin
    <+: rb'.contents.map Stamped.origin

theorem Grows.refl (rb : RingBuffer (Stamped α)) : Grows rb rb :=
  ⟨rfl, rfl, List.prefix_refl _⟩

theorem Grows.cell (h : Grows rb rb') : rb'.cell k = rb.cell k := by
  rw [RingBuffer.cell, RingBuffer.cell, h.endIndex, h.tail]

theorem Grows.count_le (h : Grows rb rb') : rb.count ≤ rb'.count := by
  have hlen := h.origins.length_le
  rwa [List.length_map, List.length_map, length_contents, length_contents]
    at hlen

theorem grows_put (h : rb.put el = some rb') : Grows rb rb' := by
  refine ⟨endIndex_put h, (put_eq_some h).2.1, ?_⟩
  rw [contents_put h, List.map_append]
  exact List.prefix_append _ _

theorem origins_rewrite (hk : k < rb.count) (value : α) :
    (rb.store (rb.cell k) { rb.buf (rb.cell k) with value := value
      }).contents.map Stamped.origin = rb.contents.map Stamped.origin := by
  have hk' : k < rb.contents.length := by rwa [length_contents]
  rw [contents_store hk', List.map_set, ← getElem_contents hk']
  show (rb.contents.map Stamped.origin).set k rb.contents[k].origin = _
  rw [← List.getElem_map (h := by rwa [List.length_map]) Stamped.origin,
    List.set_getElem_self]

theorem grows_rewrite (hk : k < rb.count) (value : α) :
    Grows rb (rb.store (rb.cell k)
      { rb.buf (rb.cell k) with value := value }) :=
  ⟨rfl, rfl, [], (List.append_nil _).trans (origins_rewrite hk value).symm⟩

/-- The number of the element in a cell. -/
def number (rb : RingBuffer α) (c : ℕ) : ℕ :=
  if rb.tail ≤ c then c - rb.tail else c + rb.endIndex - rb.tail

/-- **The elements with their numbers.** -/
def stamp (rb : RingBuffer α) : RingBuffer (Stamped α) where
  endIndex := rb.endIndex
  head := rb.head
  tail := rb.tail
  buf c := ⟨rb.buf c, rb.buf c, rb.number c⟩
  head_lt := rb.head_lt
  tail_lt := rb.tail_lt
  endIndex_lt := rb.endIndex_lt

theorem number_cell {rb : RingBuffer α} (hk : k < rb.endIndex) :
    rb.number (rb.cell k) = k := by
  have htail := rb.tail_lt
  unfold number cell Circular.wrap
  split <;> split <;> omega

theorem origins_stamp {rb : RingBuffer α} :
    rb.stamp.contents.map Stamped.origin = rb.contents.zipIdx := by
  have hcount : rb.stamp.count = rb.count := rfl
  have hlt := rb.count_lt
  refine List.ext_getElem (by simp [hcount]) (fun k hk hk' => ?_)
  rw [List.length_zipIdx, length_contents] at hk'
  rw [List.getElem_map, getElem_contents, List.getElem_zipIdx,
    getElem_contents]
  show (rb.buf (rb.cell k), rb.number (rb.cell k)) = _
  rw [number_cell (show k < rb.endIndex by omega), Nat.zero_add]

end RingBuffer

/-! ## The invariant -/

namespace DispatchState

variable {s t : DispatchState α} {peek : PeekResult α}

/-- **What holds of a peeked element** until it is erased: it is still the first
one of its ring, in the cell that `peek` returned, and the ring is the one
`last_peek` remembers. And what `peek` saw: the rings above were empty when it
examined them, and the element was the first one of its ring. -/
structure PeekInv (s : DispatchState α) (peek : PeekResult α) : Prop where
  lastPeek : s.lastPeek = some peek.prio
  cell : peek.cell = (s.queue peek.prio).tail
  first : ((s.queue peek.prio).contents.map Stamped.origin).head?
    = some peek.element.origin
  examined : ∃ rest, s.examined = peek.prio.above.map (fun q => (q, []))
    ++ [(peek.prio, peek.element :: rest)]

/-- What the consumer knows where it stands. -/
def PcInv (s : DispatchState α) : DispatchPc α → Prop
  | .outside => True
  | .peeking prio => s.examined = prio.above.map (fun q => (q, []))
  | .peeked peek => s.PeekInv peek
  | .finding peek _ prio tail => s.PeekInv peek
      ∧ ∃ k, k ≤ (s.queue prio).count ∧ tail = (s.queue prio).cell k
  | .found peek prio cell => s.PeekInv peek
      ∧ ∃ k, k < (s.queue prio).count ∧ cell = (s.queue prio).cell k

/-- **The invariant.** What was erased from a ring and what is in it are the
elements that were put, each once and in order. -/
structure DispatchInv (s : DispatchState α) : Prop where
  conserved : ∀ prio, (s.erased prio ++ (s.queue prio).contents).map
    Stamped.origin = (s.log prio).zipIdx
  pc : s.PcInv s.pc

theorem PeekInv.mono (h : s.PeekInv peek)
    (hqueue : ∀ p, (s.queue p).Grows (t.queue p))
    (hlast : t.lastPeek = s.lastPeek) (hexamined : t.examined = s.examined) :
    t.PeekInv peek := by
  have hfirst : [peek.element.origin]
      <+: (t.queue peek.prio).contents.map Stamped.origin :=
    (List.singleton_prefix_iff_head?_eq_some.mpr h.first).trans
      (hqueue _).origins
  refine ⟨hlast.trans h.lastPeek, h.cell.trans (hqueue _).tail.symm,
    List.singleton_prefix_iff_head?_eq_some.mp hfirst, ?_⟩
  rw [hexamined]
  exact h.examined

/-- **Rings that grow** do not disturb the consumer. -/
theorem PcInv.mono {pc : DispatchPc α} (h : s.PcInv pc)
    (hqueue : ∀ p, (s.queue p).Grows (t.queue p))
    (hlast : t.lastPeek = s.lastPeek) (hexamined : t.examined = s.examined) :
    t.PcInv pc := by
  cases pc with
  | outside => exact True.intro
  | peeking prio => exact hexamined.trans h
  | peeked peek => exact PeekInv.mono h hqueue hlast hexamined
  | finding peek satisfies prio tail =>
    obtain ⟨hpeek, k, hk, rfl⟩ := h
    exact ⟨hpeek.mono hqueue hlast hexamined, k,
      Nat.le_trans hk (hqueue prio).count_le, (hqueue prio).cell.symm⟩
  | found peek prio cell =>
    obtain ⟨hpeek, k, hk, rfl⟩ := h
    exact ⟨hpeek.mono hqueue hlast hexamined, k,
      Nat.lt_of_lt_of_le hk (hqueue prio).count_le, (hqueue prio).cell.symm⟩

/-- What is known of the peeked element holds wherever there is one. -/
theorem PcInv.peekInv {pc : DispatchPc α} (h : s.PcInv pc)
    (hpeek : pc.peek = some peek) : s.PeekInv peek := by
  cases pc with
  | outside => exact absurd hpeek (by simp [DispatchPc.peek])
  | peeking prio => exact absurd hpeek (by simp [DispatchPc.peek])
  | peeked peek' =>
    obtain rfl := Option.some.inj hpeek
    exact h
  | finding peek' satisfies prio tail =>
    obtain rfl := Option.some.inj hpeek
    exact h.1
  | found peek' prio cell =>
    obtain rfl := Option.some.inj hpeek
    exact h.1

theorem grows_update {prio : TxPrio} {ring : RingBuffer (Stamped α)}
    (h : (s.queue prio).Grows ring) (p : TxPrio) :
    (s.queue p).Grows (Function.update s.queue prio ring p) := by
  by_cases hp : p = prio
  · subst hp
    rwa [Function.update_self]
  · rw [Function.update_of_ne hp]
    exact RingBuffer.Grows.refl _

theorem DispatchInv.pcInv {pc : DispatchPc α} (h : s.DispatchInv)
    (hpc : s.pc = pc) : s.PcInv pc :=
  hpc ▸ h.pc

theorem DispatchInv.go {pc : DispatchPc α} (h : s.DispatchInv)
    (hpc : s.PcInv pc) : DispatchInv { s with pc := pc } :=
  ⟨h.conserved, hpc.mono (fun _ => RingBuffer.Grows.refl _) rfl rfl⟩

/-! ## The steps -/

/-- **A put.** -/
theorem DispatchInv.put (h : s.DispatchInv) (prio : TxPrio) (el : α) :
    (s.put prio el).DispatchInv := by
  unfold DispatchState.put
  cases hput : (s.queue prio).put ⟨el, el, (s.log prio).length⟩ with
  | none => exact h
  | some ring =>
    refine ⟨fun p => ?_, h.pc.mono (grows_update (RingBuffer.grows_put hput))
      rfl rfl⟩
    by_cases hp : p = prio
    · subst hp
      dsimp only
      rw [Function.update_self, Function.update_self,
        RingBuffer.contents_put hput, ← List.append_assoc, List.map_append,
        h.conserved p, List.zipIdx_append]
      simp
    · dsimp only
      rw [Function.update_of_ne hp, Function.update_of_ne hp]
      exact h.conserved p

/-- **The `peek` of one ring.** -/
theorem DispatchInv.examine {prio : TxPrio} (h : s.DispatchInv)
    (hpc : s.pc = .peeking prio) : (s.examine prio).DispatchInv := by
  have hexamined : s.examined = prio.above.map (fun q => (q, [])) :=
    h.pcInv hpc
  unfold DispatchState.examine
  cases hpeek : (s.queue prio).peek with
  | some cell =>
    obtain ⟨rfl, hhead⟩ := RingBuffer.peek_eq_some hpeek
    obtain ⟨rest, hcontents⟩ := List.head?_eq_some_iff.mp hhead
    refine ⟨h.conserved, rfl, RingBuffer.cell_zero _, ?_, rest, ?_⟩
    · show ((s.queue prio).contents.map Stamped.origin).head? = _
      rw [hcontents]
      rfl
    · show s.examined ++ [(prio, (s.queue prio).contents)] = _
      rw [hexamined, hcontents]
  | none =>
    refine ⟨h.conserved, ?_⟩
    have hnil : (s.queue prio).contents = [] :=
      RingBuffer.peek_eq_none_iff.mp hpeek
    cases hnext : prio.next with
    | none => exact True.intro
    | some next =>
      show s.examined ++ [(prio, (s.queue prio).contents)] = _
      rw [hexamined, hnil, TxPrio.above_of_next hnext, List.map_append]
      rfl

/-- **A round of `find`.** -/
theorem DispatchInv.scan {satisfies : α → Bool} {prio : TxPrio} {tail : ℕ}
    (h : s.DispatchInv) (hpc : s.pc = .finding peek satisfies prio tail) :
    (s.scan peek satisfies prio tail).DispatchInv := by
  obtain ⟨hpeek, k, hk, rfl⟩ := h.pcInv hpc
  have hlt := (s.queue prio).count_lt
  unfold DispatchState.scan
  dsimp only
  by_cases hend : (s.queue prio).head = (s.queue prio).cell k
  · rw [if_neg (by simpa using hend)]
    refine h.go ?_
    cases hnext : prio.next with
    | none => exact hpeek
    | some next =>
      exact ⟨hpeek, 0, Nat.zero_le _, (RingBuffer.cell_zero _).symm⟩
  · rw [if_pos hend]
    have hne : k ≠ (s.queue prio).count := by
      rintro rfl
      exact hend (RingBuffer.cell_count _).symm
    split
    · exact h.go ⟨hpeek, k, by omega, rfl⟩
    · exact h.go ⟨hpeek, k + 1, by omega, RingBuffer.next_cell (by omega)⟩

/-- **A rewrite.** -/
theorem DispatchInv.rewrite {prio : TxPrio} {cell : ℕ} (h : s.DispatchInv)
    (hpc : s.pc = .found peek prio cell) (value : α) :
    (s.rewrite peek prio cell value).DispatchInv := by
  obtain ⟨hpeek, k, hk, rfl⟩ := h.pcInv hpc
  refine ⟨fun p => ?_, hpeek.mono
    (grows_update (RingBuffer.grows_rewrite hk value)) rfl rfl⟩
  have hconserved := h.conserved p
  rw [List.map_append] at hconserved ⊢
  show _ ++ (Function.update s.queue prio _ p).contents.map _ = _
  by_cases hp : p = prio
  · subst hp
    rw [Function.update_self, RingBuffer.origins_rewrite hk]
    exact hconserved
  · rw [Function.update_of_ne hp]
    exact hconserved

/-- **What an erase may do**: it takes off the element that was peeked, which
has been rewritten at most, and nothing else. -/
structure ErasesPeeked (s : DispatchState α) (peek : PeekResult α)
    (t : DispatchState α) : Prop where
  element : ((s.queue peek.prio).buf peek.cell).origin = peek.element.origin
  taken : (s.queue peek.prio).contents
    = (s.queue peek.prio).buf peek.cell :: (t.queue peek.prio).contents
  erased : t.erased = Function.update s.erased peek.prio
    (s.erased peek.prio ++ [(s.queue peek.prio).buf peek.cell])
  others : ∀ p, p ≠ peek.prio → t.queue p = s.queue p

/-- **An erase** finds the peeked element in the ring that `last_peek`
remembers, whatever was put in between. -/
theorem PeekInv.erase (h : s.PeekInv peek) :
    s.lastPeek.map s.erase = some (s.erase peek.prio)
      ∧ s.ErasesPeeked peek (s.erase peek.prio) := by
  refine ⟨by rw [h.lastPeek, Option.map_some], ?_⟩
  have hne : (s.queue peek.prio).contents ≠ [] := by
    intro hnil
    have hfirst := h.first
    rw [hnil] at hfirst
    exact absurd hfirst (by simp)
  obtain ⟨ring, herase, hcontents⟩ := RingBuffer.exists_eraseFirst hne
  have hfirst := h.first
  rw [hcontents, ← h.cell] at hfirst
  unfold DispatchState.erase
  rw [herase]
  refine ⟨Option.some.inj hfirst, ?_, ?_, fun p hp =>
    Function.update_of_ne hp _ _⟩
  · dsimp only
    rw [Function.update_self, h.cell]
    exact hcontents
  · dsimp only
    rw [h.cell]

theorem exists_peeked_of_erase (hstep : DispatchStep s .erase t) :
    ∃ peek, s.pc = .peeked peek := by
  rw [DispatchStep] at hstep
  cases hpc : s.pc <;> rw [dispatchStep, hpc] at hstep
  case peeked peek => exact ⟨peek, rfl⟩
  all_goals exact absurd hstep (by simp)

theorem PeekInv.eq_of_erase (h : s.PeekInv peek) (hpc : s.pc = .peeked peek)
    (hstep : DispatchStep s .erase t) : s.erase peek.prio = t := by
  rw [DispatchStep, dispatchStep, hpc] at hstep
  exact Option.some.inj (h.erase.1.symm.trans hstep)

theorem ErasesPeeked.conserved (h : s.ErasesPeeked peek t) (p : TxPrio) :
    t.erased p ++ (t.queue p).contents
      = s.erased p ++ (s.queue p).contents := by
  by_cases hp : p = peek.prio
  · rw [h.erased, hp, Function.update_self, List.append_assoc,
      List.singleton_append, ← h.taken]
  · rw [h.erased, Function.update_of_ne hp, h.others p hp]

theorem log_erase (prio : TxPrio) : (s.erase prio).log = s.log := by
  unfold DispatchState.erase
  split <;> rfl

theorem pc_erase (prio : TxPrio) : (s.erase prio).pc = .outside := by
  unfold DispatchState.erase
  split <;> rfl

theorem DispatchInv.erase (h : s.DispatchInv) (hpc : s.pc = .peeked peek) :
    (s.erase peek.prio).DispatchInv := by
  refine ⟨fun p => ?_, ?_⟩
  · rw [((h.pcInv hpc).erase.2).conserved p, log_erase]
    exact h.conserved p
  · rw [pc_erase]
    exact True.intro

/-- **Every step keeps the invariant.** -/
theorem DispatchInv.step {e : DispatchEvent α} (h : s.DispatchInv)
    (hstep : DispatchStep s e t) : t.DispatchInv := by
  rw [DispatchStep] at hstep
  cases e with
  | put prio el =>
    obtain rfl := Option.some.inj hstep
    exact h.put prio el
  | peek =>
    have hpeek : DispatchInv { s with pc := .peeking .high, examined := [] } :=
      ⟨h.conserved, rfl⟩
    cases hpc : s.pc <;> rw [dispatchStep, hpc] at hstep
    case outside => exact Option.some.inj hstep ▸ hpeek
    case peeked => exact Option.some.inj hstep ▸ hpeek
    all_goals exact absurd hstep (by simp)
  | find satisfies =>
    cases hpc : s.pc <;> rw [dispatchStep, hpc] at hstep
    case peeked peek =>
      obtain rfl := Option.some.inj hstep
      exact h.go ⟨h.pcInv hpc, 0, Nat.zero_le _, (RingBuffer.cell_zero _).symm⟩
    all_goals exact absurd hstep (by simp)
  | tick =>
    cases hpc : s.pc <;> rw [dispatchStep, hpc] at hstep
    case peeking prio => exact Option.some.inj hstep ▸ h.examine hpc
    case finding peek satisfies prio tail =>
      exact Option.some.inj hstep ▸ h.scan hpc
    all_goals exact absurd hstep (by simp)
  | rewrite value =>
    cases hpc : s.pc <;> rw [dispatchStep, hpc] at hstep
    case found peek prio cell =>
      exact Option.some.inj hstep ▸ h.rewrite hpc value
    all_goals exact absurd hstep (by simp)
  | leave =>
    cases hpc : s.pc <;> rw [dispatchStep, hpc] at hstep
    case found peek prio cell =>
      exact Option.some.inj hstep ▸ h.go (h.pcInv hpc).1
    all_goals exact absurd hstep (by simp)
  | erase =>
    obtain ⟨peek, hpc⟩ := exists_peeked_of_erase hstep
    have hpeek : s.PeekInv peek := h.pcInv hpc
    obtain rfl := hpeek.eq_of_erase hpc hstep
    exact h.erase hpc

/-! ## The start -/

/-- Any three rings: what is in them counts as put. -/
def initial (queue : TxPrio → RingBuffer α) (lastPeek : Option TxPrio) :
    DispatchState α where
  queue p := (queue p).stamp
  lastPeek := lastPeek
  pc := .outside
  log p := (queue p).contents
  erased _ := []
  examined := []

theorem dispatchInv_initial (queue : TxPrio → RingBuffer α)
    (lastPeek : Option TxPrio) : (initial queue lastPeek).DispatchInv :=
  ⟨fun _ => RingBuffer.origins_stamp, True.intro⟩

/-! ## The runs -/

/-- **Dispatch by priority.** From any three rings, and whatever the prio
threads put into them:

* the elements of a ring that were erased and the ones that are still in it are
  all that were put into it, in order; the elements are numbered, so none is
  erased twice;
* what was peeked was the first element of its ring, and each ring above had
  been found empty;
* an erase is possible when an element is peeked, and only then, and it takes
  off that element. -/
theorem dispatch_erases_peeked {queue : TxPrio → RingBuffer α}
    {lastPeek : Option TxPrio} {es : List (DispatchEvent α)}
    {s : DispatchState α}
    (h : Run DispatchStep (initial queue lastPeek) es s) :
    (∀ p, (s.erased p ++ (s.queue p).contents).map Stamped.origin
        = (s.log p).zipIdx)
      ∧ (∀ peek, s.pc.peek = some peek → ∃ rest,
        s.examined = peek.prio.above.map (fun q => (q, []))
          ++ [(peek.prio, peek.element :: rest)])
      ∧ (∀ peek, s.pc = .peeked peek → ∃ t, DispatchStep s .erase t)
      ∧ ∀ t, DispatchStep s .erase t →
        ∃ peek, s.pc = .peeked peek ∧ s.ErasesPeeked peek t := by
  have hinv : s.DispatchInv := h.invariant DispatchInv
    (dispatchInv_initial queue lastPeek) (fun _ _ _ hI hstep => hI.step hstep)
  refine ⟨hinv.conserved, fun peek hpeek => ?_, fun peek hpc => ?_,
    fun t hstep => ?_⟩
  · exact (hinv.pc.peekInv hpeek).examined
  · refine ⟨s.erase peek.prio, ?_⟩
    rw [DispatchStep, dispatchStep, hpc]
    exact (PeekInv.erase (hinv.pcInv hpc)).1
  · obtain ⟨peek, hpc⟩ := exists_peeked_of_erase hstep
    have hpeek : s.PeekInv peek := hinv.pcInv hpc
    obtain rfl := hpeek.eq_of_erase hpc hstep
    exact ⟨peek, hpc, hpeek.erase.2⟩

/-- An element of the low ring is peeked, and one of the high ring arrives before
the medium ring is looked at. It is found and rewritten, and the low one is
erased. -/
theorem dispatch_erases_peeked_low :
    ∃ s t : DispatchState ℕ, DispatchStep s .erase t
      ∧ (s.queue .high).contents.map Stamped.value = [9]
      ∧ t.queue .high = s.queue .high
      ∧ (s.queue .low).contents.map Stamped.value = [7]
      ∧ (t.queue .low).contents = [] := by
  let queue : TxPrio → RingBuffer ℕ
    | .low => ⟨4, 1, 0, fun _ => 7, by decide, by decide, by decide⟩
    | _ => .create (fun _ => 0) 4 (by decide) (by decide)
  have hs : ([.peek, .tick, .put .high 5, .tick, .tick, .find (· = 5), .tick,
      .rewrite 9].foldlM dispatchStep (initial queue none)).any (fun s =>
        (dispatchStep s .erase).isSome
        ∧ s.pc.peek.map PeekResult.prio = some .low
        ∧ (s.queue .high).contents.map Stamped.value = [9]
        ∧ (s.queue .low).contents.map Stamped.value = [7]) = true := by
    decide +kernel
  obtain ⟨s, hrun, hs⟩ := (Option.any_eq_true _ _).mp hs
  obtain ⟨hsome, hprio, hhigh, hlow⟩ := of_decide_eq_true hs
  obtain ⟨t, ht⟩ := Option.isSome_iff_exists.mp hsome
  obtain ⟨peek, hpc, herases⟩ :=
    (dispatch_erases_peeked (Run.of_foldlM hrun)).2.2.2 t ht
  have hpeek : peek.prio = .low := by
    rw [hpc] at hprio
    exact Option.some.inj hprio
  have htaken := herases.taken
  rw [hpeek] at htaken
  refine ⟨s, t, ht, hhigh, herases.others _ ?_, hlow, ?_⟩
  · rw [hpeek]
    decide
  · rw [htaken, List.map_cons] at hlow
    exact List.map_eq_nil_iff.mp (List.cons.inj hlow).2

end DispatchState
