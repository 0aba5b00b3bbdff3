import Pifus.Write

/-!
# Acknowledged bytes

What lwIP acknowledges is a number of bytes, and the write queue holds the
sizes of the writes. `acknowledge` takes the bytes off the front of the
sizes: it is done with a write when nothing is left of it, and a write that
the bytes end in keeps the rest.

`tcp_sent_callback` stops as soon as the bytes are used up, so it comes to the
same as long as no write is empty and it has something to do: with no write in
the queue it exits. lwIP calls it only for bytes that were acknowledged, and it
calls itself only for bytes that are left. Their number is a `u16_t`.
-/

/-- **The bytes taken off the front**: the entries that are left, and the
block offsets of those that are done. -/
def acknowledge : List PifusWriteQueueEntry → ℕ →
    List PifusWriteQueueEntry × List ℕ
  | [], _ => ([], [])
  | entry :: entries, len =>
    if entry.size ≤ len then
      let r := acknowledge entries (len - entry.size)
      (r.1, entry.writeBlockOffset :: r.2)
    else ({ entry with size := entry.size - len } :: entries, [])

/-- The bytes of the entries. -/
def bytesOf (entries : List PifusWriteQueueEntry) : ℕ :=
  (entries.map PifusWriteQueueEntry.size).sum

/-- No entry is empty. -/
def Positive (entries : List PifusWriteQueueEntry) : Prop :=
  ∀ entry ∈ entries, 0 < entry.size

/-- The entries with the size of the first of them set. -/
def resize (size : ℕ) : List PifusWriteQueueEntry → List PifusWriteQueueEntry
  | [] => []
  | entry :: entries => { entry with size := size } :: entries

/-- What is left of the first of the entries, `len` bytes having been
acknowledged of it and of `before` bytes in front of it. -/
def remaining (before len : ℕ) : List PifusWriteQueueEntry → ℕ
  | [] => 0
  | entry :: _ => before + entry.size - len

/-- The results handed to `enqueue_in_cqueue`, in order. -/
def TcpSent.results (r : TcpSent) : List (PifusOperationResult ℕ) :=
  r.completed.map (fun offset => ⟨.tcpWrite, .ok, offset⟩)

/-- **The right writes are completed**: those of the longest prefix of the
entries that has at most `len` bytes, one `PIFUS_OK` each and in order; and
the next entry is left with the bytes not acknowledged. -/
structure Completes (entries : List PifusWriteQueueEntry) (len : ℕ)
    (r : TcpSent) : Prop where
  exited : r.exited = false
  longest : ∃ done rest, entries = done ++ rest ∧ bytesOf done ≤ len
    ∧ (∀ entry ∈ rest.head?, len < bytesOf done + entry.size)
    ∧ r.results = done.map (fun entry =>
        ⟨.tcpWrite, .ok, entry.writeBlockOffset⟩)
    ∧ r.writeQueue.contents = resize (remaining (bytesOf done) len rest) rest

/-- What `tcp_sent_callback` is called with: some bytes, or at least a write
that they could be of. -/
def Reportable (queue : RingBuffer PifusWriteQueueEntry) (len : UInt16) : Prop :=
  0 < len.toNat ∨ queue.contents ≠ []

variable {entry : PifusWriteQueueEntry} {entries : List PifusWriteQueueEntry}
  {queue : RingBuffer PifusWriteQueueEntry} {len fuel : ℕ}

@[simp] theorem bytesOf_nil : bytesOf [] = 0 := rfl

@[simp] theorem bytesOf_cons :
    bytesOf (entry :: entries) = entry.size + bytesOf entries := rfl

theorem positive_cons :
    Positive (entry :: entries) ↔ 0 < entry.size ∧ Positive entries :=
  List.forall_mem_cons

/-! ## Taking bytes off the front -/

theorem acknowledge_zero (h : Positive entries) :
    acknowledge entries 0 = (entries, []) := by
  cases entries with
  | nil => rfl
  | cons entry entries =>
    have hpos := (positive_cons.mp h).1
    rw [acknowledge, if_neg (by omega), Nat.sub_zero]

/-- **Bytes can be taken in two goes.** -/
theorem acknowledge_add (entries : List PifusWriteQueueEntry) (a b : ℕ) :
    acknowledge entries (a + b)
      = ((acknowledge (acknowledge entries a).1 b).1,
        (acknowledge entries a).2
          ++ (acknowledge (acknowledge entries a).1 b).2) := by
  induction entries generalizing a with
  | nil => rfl
  | cons entry entries ih =>
    by_cases hfirst : entry.size ≤ a
    · have hsub : a + b - entry.size = a - entry.size + b := by omega
      rw [acknowledge, acknowledge, if_pos hfirst, if_pos (by omega), hsub, ih]
      rfl
    · rw [acknowledge, acknowledge, if_neg hfirst]
      by_cases hboth : entry.size ≤ a + b
      · have hsub : a + b - entry.size = b - (entry.size - a) := by omega
        rw [if_pos hboth, acknowledge, if_pos (show entry.size - a ≤ b by omega),
          hsub]
        rfl
      · rw [if_neg hboth, acknowledge,
          if_neg (show ¬ entry.size - a ≤ b by omega)]
        dsimp only
        rw [Nat.sub_sub]
        rfl

/-- What is taken is no longer there. -/
theorem bytesOf_acknowledge (hle : len ≤ bytesOf entries) :
    bytesOf (acknowledge entries len).1 + len = bytesOf entries := by
  induction entries generalizing len with
  | nil =>
    rw [bytesOf_nil] at hle
    rw [acknowledge, bytesOf_nil]
    omega
  | cons entry entries ih =>
    rw [bytesOf_cons] at hle ⊢
    rw [acknowledge]
    split
    · have hrest := @ih (len - entry.size) (by omega)
      dsimp only
      omega
    · rw [bytesOf_cons]
      dsimp only
      omega

theorem positive_acknowledge (h : Positive entries) :
    Positive (acknowledge entries len).1 := by
  induction entries generalizing len with
  | nil => exact h
  | cons entry entries ih =>
    obtain ⟨-, hrest⟩ := positive_cons.mp h
    rw [acknowledge]
    split
    · exact ih hrest
    · exact positive_cons.mpr ⟨by dsimp only; omega, hrest⟩

/-- **The writes done are the longest prefix** that has at most `len`
bytes. -/
theorem acknowledge_prefix (entries : List PifusWriteQueueEntry) (len : ℕ) :
    ∃ done rest, entries = done ++ rest ∧ bytesOf done ≤ len
      ∧ (∀ entry ∈ rest.head?, len < bytesOf done + entry.size)
      ∧ (acknowledge entries len).2
        = done.map PifusWriteQueueEntry.writeBlockOffset
      ∧ (acknowledge entries len).1
        = resize (remaining (bytesOf done) len rest) rest := by
  induction entries generalizing len with
  | nil => exact ⟨[], [], rfl, Nat.zero_le _, by simp, rfl, rfl⟩
  | cons entry entries ih =>
    rw [acknowledge]
    by_cases hdone : entry.size ≤ len
    · obtain ⟨done, rest, rfl, hle, hmax, hoffsets, hqueue⟩ :=
        ih (len - entry.size)
      rw [if_pos hdone]
      refine ⟨entry :: done, rest, rfl, by rw [bytesOf_cons]; omega, ?_, ?_, ?_⟩
      · intro e he
        have hlt := hmax e he
        rw [bytesOf_cons]
        omega
      · rw [List.map_cons, ← hoffsets]
      · have hsame : remaining (bytesOf done) (len - entry.size) rest
            = remaining (bytesOf (entry :: done)) len rest := by
          cases rest with
          | nil => rfl
          | cons e rest =>
            rw [remaining, remaining, bytesOf_cons]
            omega
        rw [← hsame]
        exact hqueue
    · rw [if_neg hdone]
      refine ⟨[], entry :: entries, rfl, Nat.zero_le _, ?_, rfl, ?_⟩
      · intro e he
        obtain rfl := Option.some.inj he
        rw [bytesOf_nil]
        omega
      · rw [resize, remaining, bytesOf_nil, Nat.zero_add]

/-! ## `tcp_sent_callback` -/

/-- **`tcp_sent_callback` takes the bytes off the write queue**, one write
after the other, and does not exit. -/
theorem tcpSentCallback_acknowledge {len : UInt16}
    (hpos : Positive queue.contents) (hreport : Reportable queue len)
    (hle : len.toNat ≤ bytesOf queue.contents)
    (hfuel : queue.contents.length < fuel) :
    ∃ r, tcpSentCallback fuel queue len = some r ∧ r.exited = false
      ∧ r.writeQueue.contents = (acknowledge queue.contents len.toNat).1
      ∧ r.completed = (acknowledge queue.contents len.toNat).2 := by
  induction fuel generalizing queue len with
  | zero => exact absurd hfuel (Nat.not_lt_zero _)
  | succ fuel ih =>
    have hne : queue.contents ≠ [] := by
      rcases hreport with hlen | hne
      · intro hnil
        rw [hnil, bytesOf_nil] at hle
        omega
      · exact hne
    obtain ⟨cell, hpeek⟩ : ∃ cell, queue.peek = some cell :=
      Option.ne_none_iff_exists'.mp (mt RingBuffer.peek_eq_none_iff.mp hne)
    obtain ⟨queue', herase, hcontents⟩ := RingBuffer.exists_eraseFirst hne
    obtain ⟨hcell, -⟩ := RingBuffer.peek_eq_some hpeek
    rw [← RingBuffer.cell_zero, ← hcell] at hcontents
    rw [hcontents] at hpos hle hfuel
    obtain ⟨-, hpos'⟩ := positive_cons.mp hpos
    rw [bytesOf_cons] at hle
    rw [List.length_cons] at hfuel
    rw [tcpSentCallback, hpeek, hcontents, acknowledge]
    dsimp only
    by_cases hdone : (queue.buf cell).size ≤ len.toNat
    · rw [if_pos hdone, if_pos hdone, herase, Option.getD_some]
      by_cases hmore : (queue.buf cell).size < len.toNat
      · -- bytes are left for the writes behind
        have hleft := toNat_rest len (queue.buf cell).size
        obtain ⟨r, hr, hexited, hqueue, hcompleted⟩ := @ih queue'
          (UInt16.ofNat (len.toNat - (queue.buf cell).size)) hpos'
          (Or.inl (by omega)) (by omega) (by omega)
        rw [hleft] at hqueue hcompleted
        rw [if_pos hmore, hr]
        exact ⟨_, rfl, hexited, hqueue, by rw [← hcompleted]⟩
      · -- the bytes end with this write
        have hzero : len.toNat - (queue.buf cell).size = 0 := by omega
        rw [if_neg hmore, hzero, acknowledge_zero hpos']
        exact ⟨_, rfl, rfl, rfl, rfl⟩
    · -- the bytes end inside this write
      rw [if_neg hdone, if_neg hdone]
      refine ⟨_, rfl, rfl, ?_, rfl⟩
      rw [hcell, RingBuffer.contents_store (List.length_pos_iff.mpr hne),
        hcontents, ← hcell, List.set_cons_zero]

/-- One call, with the number of rounds that is enough for the queue. -/
def sentCallback (queue : RingBuffer PifusWriteQueueEntry) (len : UInt16) :
    Option TcpSent :=
  tcpSentCallback (queue.contents.length + 1) queue len

/-- **Acknowledgements complete exactly the right writes.** With no write of
size zero in the queue, and bytes that are those of writes in it, a call
completes the right writes; and two calls come to what one call for all of
their bytes does, where a `u16_t` holds their number. -/
theorem sent_completes_writes (hpos : Positive queue.contents) :
    (∀ len, Reportable queue len → len.toNat ≤ bytesOf queue.contents →
      ∃ r, sentCallback queue len = some r
        ∧ Completes queue.contents len.toNat r)
    ∧ ∀ len₁ len₂ r₁, Reportable queue len₁ →
        sentCallback queue len₁ = some r₁ → Reportable r₁.writeQueue len₂ →
        len₁.toNat + len₂.toNat ≤ bytesOf queue.contents →
        len₁.toNat + len₂.toNat < 2 ^ 16 →
        ∃ r₂ r, sentCallback r₁.writeQueue len₂ = some r₂
          ∧ sentCallback queue (len₁ + len₂) = some r
          ∧ r₂.writeQueue.contents = r.writeQueue.contents
          ∧ r₁.results ++ r₂.results = r.results := by
  constructor
  · intro len hreport hle
    obtain ⟨r, hr, hexited, hqueue, hcompleted⟩ :=
      tcpSentCallback_acknowledge hpos hreport hle (Nat.lt_succ_self _)
    obtain ⟨done, rest, hsplit, hbytes, hmax, hoffsets, hrest⟩ :=
      acknowledge_prefix queue.contents len.toNat
    refine ⟨r, hr, hexited, done, rest, hsplit, hbytes, hmax, ?_,
      hqueue.trans hrest⟩
    rw [TcpSent.results, hcompleted, hoffsets, List.map_map]
    rfl
  · intro len₁ len₂ r₁ hreport₁ hr₁ hreport₂ hle hhalf
    obtain ⟨r₁', hr₁', -, hqueue₁, hcompleted₁⟩ :=
      tcpSentCallback_acknowledge hpos hreport₁ (by omega) (Nat.lt_succ_self _)
    obtain rfl : r₁ = r₁' := Option.some.inj (hr₁.symm.trans hr₁')
    have hbytes : bytesOf r₁.writeQueue.contents + len₁.toNat
        = bytesOf queue.contents := by
      rw [hqueue₁]
      exact bytesOf_acknowledge (by omega)
    have hpos₁ : Positive r₁.writeQueue.contents := by
      rw [hqueue₁]
      exact positive_acknowledge hpos
    obtain ⟨r₂, hr₂, -, hqueue₂, hcompleted₂⟩ :=
      tcpSentCallback_acknowledge hpos₁ hreport₂ (by omega) (Nat.lt_succ_self _)
    have hsum : (len₁ + len₂).toNat = len₁.toNat + len₂.toNat := by
      rw [UInt16.toNat_add, Nat.mod_eq_of_lt hhalf]
    have hreport : Reportable queue (len₁ + len₂) :=
      hreport₁.imp_left (fun h => by omega)
    obtain ⟨r, hr, -, hqueue, hcompleted⟩ :=
      tcpSentCallback_acknowledge hpos hreport (by rwa [hsum])
        (Nat.lt_succ_self _)
    have hadd := acknowledge_add queue.contents len₁.toNat len₂.toNat
    rw [hsum] at hqueue hcompleted
    refine ⟨r₂, r, hr₂, hr, ?_, ?_⟩
    · rw [hqueue₂, hqueue, hadd, hqueue₁]
    · unfold TcpSent.results
      rw [hcompleted₁, hcompleted₂, hcompleted, hadd, hqueue₁, List.map_append]

/-- A write queue of two writes, of ten and of twenty bytes. -/
def twoWrites : RingBuffer PifusWriteQueueEntry :=
  ⟨4, 2, 0, fun i => if i = 0 then ⟨10, 0⟩ else ⟨20, 34⟩, by decide,
    by decide, by decide⟩

/-- Fifteen bytes complete the first of two writes; and fifteen bytes behind
them complete the second, as thirty bytes complete both. -/
theorem sent_completes_writes_fifteen :
    ∃ r₁ r₂ r, sentCallback twoWrites 15 = some r₁
      ∧ Completes twoWrites.contents 15 r₁
      ∧ sentCallback r₁.writeQueue 15 = some r₂
      ∧ sentCallback twoWrites 30 = some r
      ∧ r₁.results ++ r₂.results = r.results := by
  obtain ⟨hone, htwo⟩ := sent_completes_writes
    (show ∀ entry ∈ twoWrites.contents, 0 < entry.size by decide)
  obtain ⟨r₁, hr₁, hcompletes⟩ := hone 15 (Or.inl (by decide)) (by decide)
  obtain ⟨r₂, r, hr₂, hr, -, hresults⟩ := htwo 15 15 r₁ (Or.inl (by decide)) hr₁
    (Or.inl (by decide)) (by decide) (by decide)
  exact ⟨r₁, r₂, r, hr₁, hcompletes, hr₂, hr, hresults⟩
