import Pifus.Delivered

/-!
# The completion queue has room for every block

`enqueue_in_cqueue` drops a result that finds the completion queue full, and
with a `TCP_WRITE` or `TCP_RECV` result the block is lost. Nothing in the stack
prevents that. What does is the size of the region: a block takes 25 bytes at
least, so an app has 39999 blocks at most, and as each belongs to one result
(`DataInv.owners`), so many results bring a block at the same time. The queue
takes 65534. What is left is for the results without a block
(`no_result_is_dropped`).
-/

variable {app : AppRegion} {c c' c'' : DataSocket} {s t : DataState}
  {e : DataEvent}

/-! ## Blocks of a region -/

/-- Live blocks take a header and a byte. -/
theorem length_liveOf_le {bs : List Block} {p : ℕ}
    (hpos : ∀ block ∈ liveOf p bs, 0 < block.2) :
    25 * (liveOf p bs).length ≤ span bs := by
  induction bs generalizing p with
  | nil => exact Nat.le_refl _
  | cons b bs ih =>
    rw [liveOf] at hpos ⊢
    rw [span_cons]
    split at hpos
    · rename_i hfree
      rw [if_pos hfree]
      have := ih hpos
      omega
    · rename_i hfree
      rw [if_neg hfree, List.length_cons]
      have := ih (fun block hblock => hpos block (List.mem_cons_of_mem _ hblock))
      have := hpos _ List.mem_cons_self
      omega

/-- An app has no more than 39999 blocks. -/
theorem HeapInv.length_live_le {h : HeapState} (hI : HeapInv app h) :
    h.live.length ≤ 39999 := by
  obtain ⟨bs, hrep, hlive⟩ := id hI
  have hspan := @length_liveOf_le bs (app.addr + 4) (fun block hblock =>
    (hI.size_eq (hlive.mem_iff.mpr hblock)).2)
  have hfits := hrep.fits
  rw [hlive.length_eq]
  simp only [shmAppSize] at hfits
  omega

/-! ## Results -/

/-- The number of the results that bring no block. -/
def unblocked (results : List (PifusOperationResult ℕ)) : ℕ :=
  results.countP (fun result => resultBlock result = none)

/-- Every result brings a block or none. -/
theorem length_results (results : List (PifusOperationResult ℕ)) :
    results.length = unblocked results
      + (results.filterMap resultBlock).length := by
  induction results with
  | nil => rfl
  | cons result results ih =>
    rw [unblocked, List.countP_cons, List.length_cons, ih]
    cases hblock : resultBlock result with
    | none =>
      rw [List.filterMap_cons_none hblock, if_pos (by simp)]
      simp only [unblocked]
      omega
    | some off =>
      rw [List.filterMap_cons_some hblock, if_neg (by simp), List.length_cons]
      simp only [unblocked]
      omega

/-- **What is done to the results of a socket**: some are added, `n` of them
without a block; and only a full queue drops one. -/
structure Enqueues (n : ℕ) (c c' : DataSocket) : Prop where
  endIndex : c'.cqueue.endIndex = c.cqueue.endIndex
  full : (c.dropped ≠ [] → c.cqueue.contents.length + 1 = c.cqueue.endIndex) →
    c'.dropped ≠ [] → c'.cqueue.contents.length + 1 = c'.cqueue.endIndex
  count : unblocked c'.cqueue.contents + unblocked c'.dropped
    = unblocked c.cqueue.contents + unblocked c.dropped + n

theorem Enqueues.none (hqueue : c'.cqueue = c.cqueue)
    (hdropped : c'.dropped = c.dropped) : Enqueues 0 c c' :=
  ⟨by rw [hqueue], by rw [hqueue, hdropped]; exact id, by rw [hqueue, hdropped]; rfl⟩

theorem Enqueues.trans {m n : ℕ} (h : Enqueues m c c') (h' : Enqueues n c' c'') :
    Enqueues (m + n) c c'' :=
  ⟨h'.endIndex.trans h.endIndex, fun hfull => h'.full (h.full hfull), by
    rw [h'.count, h.count, Nat.add_assoc]⟩

theorem Enqueues.after {n : ℕ} (h : Enqueues n c' c'')
    (hqueue : c'.cqueue = c.cqueue) (hdropped : c'.dropped = c.dropped) :
    Enqueues n c c'' := by
  have := (Enqueues.none hqueue hdropped).trans h
  rwa [Nat.zero_add] at this

/-- **One result** is added. -/
theorem enqueues_enqueueInCqueue (c : DataSocket)
    (result : PifusOperationResult ℕ) :
    Enqueues (unblocked [result]) c (c.enqueueInCqueue result) := by
  have happend : ∀ results, unblocked (results ++ [result])
      = unblocked results + unblocked [result] := fun results =>
    List.countP_append
  unfold DataSocket.enqueueInCqueue
  cases hput : c.cqueue.put result with
  | some queue =>
    have hcontents := RingBuffer.contents_put hput
    refine ⟨RingBuffer.endIndex_put hput, fun hfull hdropped => ?_, ?_⟩
    · have hnot := mt RingBuffer.put_eq_none_iff.mpr
        (show ¬ c.cqueue.put result = none by rw [hput]; simp)
      exact absurd (hfull hdropped) hnot
    · dsimp only
      rw [hcontents, happend]
      omega
  | none =>
    refine ⟨rfl, fun _ _ => RingBuffer.put_eq_none_iff.mp hput, ?_⟩
    dsimp only
    rw [happend]
    omega

theorem enqueues_block (c : DataSocket) (result : PifusOperationResult ℕ)
    (hblock : resultBlock result ≠ none) :
    Enqueues 0 c (c.enqueueInCqueue result) := by
  have hzero : unblocked [result] = 0 := by
    rw [unblocked, List.countP_singleton, if_neg (by simpa using hblock)]
  exact hzero ▸ enqueues_enqueueInCqueue c result

theorem enqueues_complete (c : DataSocket) {code : PifusOperationCode}
    (hcode : code = .tcpWrite ∨ code = .tcpRecv) (offsets : List ℕ) :
    Enqueues 0 c (c.complete code offsets) := by
  induction offsets generalizing c with
  | nil => exact Enqueues.none rfl rfl
  | cons off offsets ih =>
    have hblock : resultBlock ⟨code, .ok, off⟩ ≠ none := by
      rw [resultBlock, if_pos hcode]
      simp
    exact (enqueues_block c _ hblock).trans (ih _)

/-! ## Steps -/

/-- The results without a block that an event adds. -/
def DataEvent.unblocked : DataEvent → ℕ
  | .result _ _ => 1
  | _ => 0

/-- **What a step does to the results of its socket**, unless it takes one
out. -/
theorem SocketStep.enqueues {h h' : HeapState} (hs : SocketStep app h c e h' c')
    (hpop : ∀ k, e ≠ .pop k) : Enqueues e.unblocked c c' := by
  cases hs with
  | recv hsize hcall => exact Enqueues.none rfl rfl
  | write hsize hcall => exact Enqueues.none rfl rfl
  | processRecv hop hs =>
    unfold DataSocket.processRecv at hs
    obtain ⟨recv, -, rfl⟩ := Option.map_eq_some_iff.mp hs
    dsimp only
    split
    · exact (enqueues_block _ _ (by simp [resultBlock])).after rfl rfl
    · exact Enqueues.none rfl rfl
  | processWrite hop hs =>
    unfold DataSocket.processWrite
    split
    · exact Enqueues.none rfl rfl
    dsimp only
    split
    · exact (enqueues_block _ _ (by simp [resultBlock])).after rfl rfl
    · exact Enqueues.none rfl rfl
  | deliver hs =>
    exact (enqueues_complete _ (Or.inr rfl) _).after rfl rfl
  | sent hs =>
    unfold DataSocket.sent at hs
    split at hs
    · obtain ⟨r, -, hs⟩ := Option.bind_eq_some_iff.mp hs
      split at hs
      · exact absurd hs (by simp)
      · obtain rfl := Option.some.inj hs
        exact (enqueues_complete _ (Or.inl rfl) _).after rfl rfl
    · exact absurd hs (by simp)
  | @result _ result hnone =>
    have hone : unblocked [result] = 1 := by
      rw [unblocked, List.countP_singleton, hnone]
      rfl
    have := enqueues_enqueueInCqueue c result
    rw [hone] at this
    exact this
  | popWrite hget hcode => exact absurd rfl (hpop _)
  | popRecv hget hcode => exact absurd rfl (hpop _)
  | popOther hget hnone => exact absurd rfl (hpop _)

/-- **No result was dropped**, and there is room for as many blocks as an app
can have. -/
structure RoomInv (c : DataSocket) : Prop where
  endIndex : c.cqueue.endIndex = cqueueSize
  dropped : c.dropped = []
  unread : unblocked c.cqueue.contents ≤ 25535

theorem RoomInv.pop {result : PifusOperationResult ℕ}
    {queue : RingBuffer (PifusOperationResult ℕ)} (h : RoomInv c)
    (hget : c.cqueue.get = some (result, queue)) (hqueue : c'.cqueue = queue)
    (hdropped : c'.dropped = c.dropped) : RoomInv c' := by
  refine ⟨?_, hdropped.trans h.dropped, ?_⟩
  · rw [hqueue, RingBuffer.endIndex_get hget]
    exact h.endIndex
  · have hle := h.unread
    rw [RingBuffer.contents_get hget] at hle
    rw [hqueue]
    refine Nat.le_trans (List.Sublist.countP_le ?_) hle
    exact List.sublist_cons_self _ _

/-- **A step of a socket drops no result**: a full queue holds more blocks than
the app can have. -/
theorem RoomInv.step {h h' : HeapState} (hroom : RoomInv c)
    (hs : SocketStep app h c e h' c')
    (hunread : unblocked c.cqueue.contents + e.unblocked ≤ 25535)
    (hblocks : c'.offsets.length ≤ 39999) : RoomInv c' := by
  by_cases hpop : ∀ k, e ≠ .pop k
  · have hadd := hs.enqueues hpop
    have hend := hadd.endIndex.trans hroom.endIndex
    have hcount := hadd.count
    have hnone : unblocked ([] : List (PifusOperationResult ℕ)) = 0 := rfl
    rw [hroom.dropped, hnone] at hcount
    have hdropped : c'.dropped = [] := by
      by_contra hne
      have hfull := hadd.full (fun hold => absurd hroom.dropped hold) hne
      have hlen := length_results c'.cqueue.contents
      have hlen' := length_results c'.dropped
      have hpos := List.length_pos_iff.mpr hne
      rw [DataSocket.offsets_eq, DataSocket.resultOffsets] at hblocks
      simp only [List.length_append] at hblocks
      rw [hend] at hfull
      simp only [cqueueSize] at hfull
      omega
    rw [hdropped, hnone] at hcount
    exact ⟨hend, hdropped, by omega⟩
  · obtain ⟨k, hk⟩ := not_forall.mp hpop
    obtain rfl := not_not.mp hk
    cases hs with
    | popWrite hget hcode => exact hroom.pop hget rfl rfl
    | popRecv hget hcode => exact hroom.pop hget rfl rfl
    | popOther hget hnone => exact hroom.pop hget rfl rfl

theorem DataInv.length_offsets_le (h : DataInv app s) (hc : c ∈ s.sockets) :
    c.offsets.length ≤ 39999 := by
  obtain ⟨pre, post, hsplit⟩ := List.append_of_mem hc
  have hlen := (h.owners.trans (DataState.owned_perm hsplit)).length_eq
  rw [List.length_append, DataSocket.owned, List.length_map, List.length_map]
    at hlen
  have hlive : s.live.length ≤ 39999 := h.heap.length_live_le
  omega

/-! ## Runs -/

/-- The app leaves at most 25535 results without a block unread at a socket. -/
def DataState.Reads (s : DataState) (e : DataEvent) : Prop :=
  ∀ c ∈ e.on.bind (fun k => s.sockets[k]?),
    unblocked c.cqueue.contents + e.unblocked ≤ 25535

theorem roomInv_initial : RoomInv .initial :=
  ⟨rfl, rfl, Nat.zero_le _⟩

/-- **No result is dropped**, in a run in which each freed block has its back
offset intact and the app does not leave more than 25535 results without a block
unread at one socket. -/
theorem no_result_is_dropped {es : List DataEvent}
    (h : Run (Guarded (fun s e => s.FreesIntact app e ∧ s.Reads e)
      (DataStep app)) DataState.initial es s) :
    ∀ c ∈ s.sockets, c.dropped = [] := by
  have hinv : DataInv app s ∧ ∀ c ∈ s.sockets, RoomInv c := by
    refine h.invariant (fun s => DataInv app s ∧ ∀ c ∈ s.sockets, RoomInv c)
      ⟨dataInv_initial, by simp [DataState.initial]⟩ ?_
    rintro s e t ⟨hinv, hroom⟩ ⟨⟨hok, hreads⟩, hs⟩
    obtain ⟨-, hinv'⟩ := hinv.step hok hs
    refine ⟨hinv', fun c₀ hc₀ => ?_⟩
    rcases dataStep_cases hs with
      ⟨k, c, c', hk, hc, hset, hstep⟩ | ⟨-, rfl⟩ | ⟨hsame, -⟩
    · have hmem := hc₀
      rw [hset] at hc₀
      rcases List.mem_or_eq_of_mem_set hc₀ with hold | rfl
      · exact hroom c₀ hold
      · exact (hroom c (List.mem_of_getElem? hc)).step hstep
          (hreads c (by rw [hk]; exact hc)) (hinv'.length_offsets_le hmem)
    · rcases List.mem_append.mp hc₀ with hold | hnew
      · exact hroom c₀ hold
      · obtain rfl := List.mem_singleton.mp hnew
        exact roomInv_initial
    · exact hroom c₀ (hsame ▸ hc₀)
  exact fun c hc => (hinv.2 c hc).dropped

instance (s : DataState) (e : DataEvent) : Decidable (s.Reads e) :=
  inferInstanceAs (Decidable (∀ c ∈ e.on.bind _,
    unblocked (DataSocket.cqueue c).contents + e.unblocked ≤ 25535))

/-- A result without a block and one with a block wait for the app. -/
theorem no_result_is_dropped_two :
    ∃ (s : DataState) (c : DataSocket), c ∈ s.sockets
      ∧ c.cqueue.contents.map resultBlock = [none, some 0] ∧ c.dropped = [] := by
  have hs : ([.socket, .result 0 ⟨.tcpConnect, .ok, 0⟩, .write 0 [7, 8],
      .process 0 false .ok, .sent 0 2].foldlM
      (guardedStep (fun s e => s.FreesFirst exampleRegion e ∧ s.Reads e)
        (dataStep exampleRegion)) DataState.initial).any
      (fun s => s.sockets[0]?.any (fun c =>
        c.cqueue.contents.map resultBlock = [none, some 0])) = true := by
    decide +kernel
  obtain ⟨s, hrun, hp⟩ := (Option.any_eq_true _ _).mp hs
  obtain ⟨c, hc, hp⟩ := (Option.any_eq_true _ _).mp hp
  have hintact := (Run.guarded_of_foldlM hrun).mono
    (fun s e t hs => And.intro (And.intro hs.1.1.intact hs.1.2) hs.2)
  have hmem := List.mem_of_getElem? hc
  exact ⟨s, c, hmem, of_decide_eq_true hp, no_result_is_dropped hintact c hmem⟩
