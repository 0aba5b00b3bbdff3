import Pifus.PrioInvariant

/-!
# Runs of the prio threads

The steps of the prio threads themselves, one lemma for each place a thread can
be in, and what holds after every run.
-/

namespace PrioState

open LinkedList

variable {α : Type} {start s t u : PrioState α} {prio : PifusPriority}
  {th : PrioThread} {id : PifusSocketIdentifier} {newNode : ℕ}
  {cells : List (ℕ × PifusSocketIdentifier)}
  {entries : List FutexWaitv} {listed among : List PifusSocketIdentifier}

/-! ## What a thread may change -/

/-- **A step of a prio thread**: it changes its variables, its queue, `waitvs`
and the sockets it has registered, and no word. -/
theorem PrioInv.setThread (h : PrioInv s)
    (hsqueue : ∀ id, SqueueInv (t.sockets id))
    (hsockets : ∀ id, id ∉ (s.threads prio).registered →
      t.sockets id = s.sockets id)
    (hwords : ∀ w, t.word w = s.word w)
    (hqueue : ∀ prio', prio' ≠ prio → t.queue prio' = s.queue prio')
    (hptrs : t.socketPtrs = s.socketPtrs) (hhanded : t.handed = s.handed)
    (hhanding : t.handing = s.handing) (hthreads : t.threads = s.threads)
    (hhandler : ∀ id, (t.sockets id).pc = .outside ∨ th.pc.current = some id
      ∨ ((s.threads prio).pc.current ≠ some id
        ∧ (t.sockets id).pc = (s.sockets id).pc))
    (hth : ThreadInv t prio th) : PrioInv (t.setThread prio th) := by
  have hself : (t.setThread prio th).threads prio = th :=
    Function.update_self _ _ _
  have hothers : ∀ prio', prio' ≠ prio →
      (t.setThread prio th).threads prio' = s.threads prio' :=
    fun prio' hne => by
      rw [← hthreads]
      exact Function.update_of_ne hne _ _
  refine ⟨hsqueue, fun id => ?_, ?_, ?_, ?_, fun prio' => ?_, fun prio' => ?_⟩
  · rcases hhandler id with houtside | hcurrent | ⟨hnot, hpc⟩
    · exact Or.inl houtside
    · refine Or.inr ⟨prio, ?_⟩
      rw [hself]
      exact hcurrent
    · refine (h.handler id).imp hpc.trans (fun ⟨prio', hcurrent⟩ => ⟨prio', ?_⟩)
      have hne : prio' ≠ prio := fun heq => hnot (heq ▸ hcurrent)
      rw [hothers prio' hne]
      exact hcurrent
  · exact hhanded ▸ h.nodup
  · exact hhanded ▸ h.tables
  · exact hhanded ▸ h.disjoint
  · have hword : t.queueFutex prio' = s.queueFutex prio' :=
      hwords (.socketQueueFutex prio')
    show t.queueFutex prio' + (if t.handing = some prio' then 1 else 0)
      = UInt32.ofNat (t.handed prio').length
    rw [hword, hhanding, hhanded]
    exact h.queueFutex prio'
  · by_cases heq : prio' = prio
    · rw [heq, hself]
      exact ⟨hth.nodup, hth.handed, hth.shadow, hth.nr, hth.list⟩
    · rw [hothers prio' heq]
      refine (h.thread prio').frame (hqueue prio' heq) (fun id hid => ?_)
        (fun id hid => ?_) (fun id _ ho => ?_)
        (fun _ _ entry _ => hwords entry.uaddr)
      · exact hhanded ▸ hid
      · -- the socket is not one of this thread
        have hnot : id ∉ (s.threads prio).registered := fun hid' =>
          heq (h.disjoint prio' prio id ((h.thread prio').mem_handed hid)
            ((h.thread prio).mem_handed hid'))
        exact congrArg SqueueState.shadow (hsockets id hnot)
      · exact hptrs ▸ ho

theorem PrioInv.goto (h : PrioInv s)
    (hcurrent : (s.threads prio).pc.current = none)
    (hth : ThreadInv s prio th) : PrioInv (s.setThread prio th) :=
  h.setThread h.squeue (fun _ _ => rfl) (fun _ => rfl) (fun _ _ => rfl) rfl rfl
    rfl rfl (fun id => Or.inr (Or.inr ⟨by rw [hcurrent]; simp, rfl⟩)) hth

theorem PrioInv.fault (h : PrioInv s)
    (hcurrent : (s.threads prio).pc.current = none)
    (hpushed : (s.threads prio).pc.pushed = []) :
    PrioInv (s.setThread prio { s.threads prio with pc := .faulted }) :=
  h.goto hcurrent ((h.thread prio).goto hpushed.symm rfl rfl (h.thread prio).nr
    (fun hne => absurd rfl hne))

/-- **The thread goes on in its pass**, with its list and what it knows of it
there. -/
theorem PrioInv.advance {list : LinkedList PifusSocketIdentifier}
    {removable : Bool} {pc : PrioPc} (h : PrioInv s)
    (hcurrent : (s.threads prio).pc.current = none)
    (hpushed : (s.threads prio).pc.pushed = []) (hpc : pc.pushed = [])
    (hth : ∃ cells, s.Holds { s.threads prio with list := list } cells
      ∧ s.PcInv prio { s.threads prio with
        list := list, removableSocketInsideList := removable, pc := pc } cells) :
    PrioInv (s.setThread prio { s.threads prio with
      list := list, removableSocketInsideList := removable, pc := pc }) :=
  h.goto hcurrent ((h.thread prio).goto (hpc.trans hpushed.symm) rfl rfl
    (h.thread prio).nr (fun _ => hth))

/-- The write of an entry of `waitvs`. -/
theorem PrioInv.putWaitv {entry : FutexWaitv}
    {socketFromFutexNr : ℕ → SocketPtr} {pc : PrioPc} (h : PrioInv s)
    (hcurrent : (s.threads prio).pc.current = none)
    (hpushed : (s.threads prio).pc.pushed = [])
    (hth : ThreadInv s prio { s.threads prio with
      amountFutexes := (s.threads prio).amountFutexes + 1
      written := (s.threads prio).written ++ [entry]
      socketFromFutexNr := socketFromFutexNr
      pc := pc }) :
    PrioInv (s.putWaitv prio entry socketFromFutexNr pc) := by
  unfold PrioState.putWaitv
  dsimp only
  split
  · refine h.setThread h.squeue (fun _ _ => rfl) (fun w => by cases w <;> rfl)
      (fun _ _ => rfl) rfl rfl rfl rfl (fun id => Or.inr (Or.inr ⟨?_, rfl⟩))
      ⟨hth.nodup, hth.handed, hth.shadow, hth.nr, hth.list⟩
    rw [hcurrent]
    simp
  · exact h.fault hcurrent hpushed

/-! ## `handle_squeue_change` -/

/-- A thread calls `handle_squeue_change` for one of its sockets. -/
theorem PrioInv.call {pc : PrioPc} (h : PrioInv s)
    (hcurrent : (s.threads prio).pc.current = none)
    (hid : id ∈ (s.threads prio).registered)
    (hs : s.stepSocket id .call = some t) (hpc : pc.current = some id)
    (hth : ThreadInv s prio { s.threads prio with pc := pc }) :
    PrioInv (t.setThread prio { s.threads prio with pc := pc }) := by
  obtain ⟨socket, hsocket, rfl⟩ := Option.map_eq_some_iff.mp hs
  have hshadow := squeueStep_shadow hsocket (by simp)
  have hfutex := squeueStep_futex hsocket (by simp)
  have hwords : ∀ w, PrioState.word { s with
      sockets := Function.update s.sockets id socket } w = s.word w := by
    intro w
    cases w with
    | squeueFutex id' => exact update_socket hfutex id'
    | socketQueueFutex prio' => rfl
  refine h.setThread (squeueInv_update h.squeue hsocket) (fun id' hid' => ?_)
    hwords (fun _ _ => rfl) rfl rfl rfl rfl (fun id' => ?_) ?_
  · have hne : id' ≠ id := fun heq => hid' (heq ▸ hid)
    exact Function.update_of_ne hne _ _
  · by_cases heq : id' = id
    · exact Or.inr (Or.inl (heq ▸ hpc))
    · refine Or.inr (Or.inr ⟨by rw [hcurrent]; simp, ?_⟩)
      exact congrArg SqueueState.pc (Function.update_of_ne heq _ _)
  · exact hth.frame rfl (fun _ hid => hid)
      (fun id' _ => update_socket hshadow id') (fun _ _ ho => ho)
      (fun _ _ entry _ => hwords entry.uaddr)

/-- **A step of `handle_squeue_change`**, or the one behind it. -/
theorem PrioInv.handleSqueueChange {behind : PrioPc} (h : PrioInv s)
    (hcurrent : (s.threads prio).pc.current = some id)
    (hs : s.handleSqueueChange prio id behind = some t)
    (hbehind : ThreadInv s prio { s.threads prio with pc := behind })
    (htick : ∀ sockets, (∀ id', id' ≠ id → sockets id' = s.sockets id') →
      ThreadInv { s with sockets := sockets } prio (s.threads prio)) :
    PrioInv t := by
  have hid := (h.thread prio).current_mem hcurrent
  unfold PrioState.handleSqueueChange at hs
  split at hs
  · rename_i houtside
    obtain rfl := Option.some.inj hs
    refine h.setThread h.squeue (fun _ _ => rfl) (fun _ => rfl) (fun _ _ => rfl)
      rfl rfl rfl rfl (fun id' => ?_) hbehind
    by_cases heq : id' = id
    · exact Or.inl (heq ▸ houtside)
    · refine Or.inr (Or.inr ⟨fun hsome => ?_, rfl⟩)
      exact heq (Option.some.inj (hsome.symm.trans hcurrent))
  · obtain ⟨socket, hsocket, rfl⟩ := Option.map_eq_some_iff.mp hs
    have hfutex := squeueStep_futex hsocket (by simp)
    have hsame : PrioState.setThread { s with
        sockets := Function.update s.sockets id socket } prio (s.threads prio)
        = { s with sockets := Function.update s.sockets id socket } := by
      rw [PrioState.setThread, Function.update_eq_self]
    rw [← hsame]
    refine h.setThread (squeueInv_update h.squeue hsocket) (fun id' hid' => ?_)
      (fun w => ?_) (fun _ _ => rfl) rfl rfl rfl rfl (fun id' => ?_)
      (htick _ (fun id' hne => Function.update_of_ne hne _ _))
    · have hne : id' ≠ id := fun heq => hid' (heq ▸ hid)
      exact Function.update_of_ne hne _ _
    · cases w with
      | squeueFutex id' => exact update_socket hfutex id'
      | socketQueueFutex prio' => rfl
    · by_cases heq : id' = id
      · exact Or.inr (Or.inl (heq ▸ hcurrent))
      · refine Or.inr (Or.inr ⟨fun hsome => ?_, ?_⟩)
        · exact heq (Option.some.inj (hsome.symm.trans hcurrent))
        · exact congrArg SqueueState.pc (Function.update_of_ne heq _ _)

/-! ## The records of a pass -/

theorem Records.snoc (h : s.Records entries listed among) :
    s.Records (entries ++ [⟨.squeueFutex id, (s.sockets id).shadow⟩])
      (listed ++ [id]) (among ++ [id]) := by
  obtain ⟨rfl, hsub, hopen⟩ := h
  refine ⟨?_, fun id' hid => ?_, fun id' hid ho => ?_⟩
  · rw [entriesFor, entriesFor, List.map_append]
    rfl
  · rw [List.mem_append] at hid ⊢
    exact hid.imp_left (fun hid => hsub hid)
  · rw [List.mem_append] at hid ⊢
    exact hid.imp_left (fun hid => hopen id' hid ho)

theorem Records.skip (h : s.Records entries listed among)
    (hclosed : s.socketPtrs id = false) :
    s.Records entries listed (among ++ [id]) := by
  obtain ⟨rfl, hsub, hopen⟩ := h
  refine ⟨rfl, fun id' hid => List.mem_append_left _ (hsub hid),
    fun id' hid ho => ?_⟩
  rcases List.mem_append.mp hid with hid | hid
  · exact hopen id' hid ho
  · obtain rfl := List.mem_singleton.mp hid
    exact absurd (hclosed.symm.trans ho) (by simp)

theorem Records.all (h : s.Records entries listed (cells.map Prod.snd))
    (hholds : s.Holds th cells) : s.Records entries listed th.registered :=
  ⟨h.1, fun _ hid => hholds.2.1.subset (h.2.1 hid),
    fun id hid ho => h.2.2 id (hholds.2.2 id hid ho) ho⟩

theorem map_take_succ {idx : ℕ} {c : ℕ × PifusSocketIdentifier}
    (hc : cells[idx]? = some c) :
    (cells.take (idx + 1)).map Prod.snd
      = (cells.take idx).map Prod.snd ++ [c.2] := by
  rw [List.take_add_one, hc, List.map_append]
  rfl

theorem ThreadInv.holds (h : ThreadInv s prio th) (hne : th.pc ≠ .faulted) :
    ∃ cells, s.Holds th cells := by
  obtain ⟨cells, hholds, -⟩ := h.list hne
  exact ⟨cells, hholds⟩

/-! ## The new sockets -/

/-- **A socket is taken out of the queue.** -/
theorem PrioInv.tick_draining (h : PrioInv s)
    (hpc : (s.threads prio).pc = .draining)
    (hs : s.tick prio newNode = some t) : PrioInv t := by
  have hthread := h.thread prio
  have hcurrent : (s.threads prio).pc.current = none := by rw [hpc]; rfl
  obtain ⟨cells, hholds⟩ := hthread.holds (by rw [hpc]; simp)
  unfold tick at hs
  simp only [hpc] at hs
  cases hget : (s.queue prio).get with
  | none =>
    rw [hget] at hs
    obtain rfl := Option.some.inj hs
    refine h.goto hcurrent (hthread.goto ?_ rfl rfl hthread.nr
      (fun _ => ⟨cells, hholds, trivial⟩))
    rw [hpc]
    rfl
  | some r =>
    obtain ⟨id, ring⟩ := r
    rw [hget] at hs
    obtain rfl := Option.some.inj hs
    have hring : Function.update s.queue prio ring prio = ring :=
      Function.update_self _ _ _
    have hplaces : (s.places prio (s.threads prio)).Perm (places
        { s with queue := Function.update s.queue prio ring } prio
        { s.threads prio with pc := .pushing id }) := by
      rw [places, places, hpc, RingBuffer.contents_get hget]
      dsimp only
      rw [hring]
      exact List.perm_middle
    refine h.setThread h.squeue (fun _ _ => rfl) (fun w => by cases w <;> rfl)
      (fun _ hne => Function.update_of_ne hne _ _) rfl rfl rfl rfl
      (fun id => Or.inr (Or.inr ⟨by rw [hcurrent]; simp, rfl⟩))
      ⟨hplaces.nodup_iff.mp hthread.nodup,
        fun id hid => hthread.handed id (hplaces.mem_iff.mpr hid),
        hthread.shadow, hthread.nr, fun _ => ⟨cells, hholds, trivial⟩⟩

/-- **A socket is put into the list.** -/
theorem PrioInv.tick_pushing (h : PrioInv s)
    (hpc : (s.threads prio).pc = .pushing id)
    (hs : s.tick prio newNode = some t) : PrioInv t := by
  have hthread := h.thread prio
  have hcurrent : (s.threads prio).pc.current = none := by rw [hpc]; rfl
  obtain ⟨cells, hrep, hsub, hopen⟩ := hthread.holds (by rw [hpc]; simp)
  unfold tick at hs
  simp only [hpc] at hs
  split at hs
  swap
  · exact absurd hs (by simp)
  rename_i hnew
  obtain ⟨list, hpush, hrep', -, -⟩ := hrep.listPushFront hnew
  rw [hpush] at hs
  obtain rfl := Option.some.inj hs
  have hplaces : s.places prio (s.threads prio)
      = id :: (s.threads prio).registered ++ (s.queue prio).contents := by
    rw [places, hpc]
    rfl
  have hnodup := hthread.nodup
  have hhanded := hthread.handed
  rw [hplaces] at hnodup hhanded
  refine h.goto hcurrent ⟨hnodup, hhanded, ?_,
    fun i id' hnr => List.mem_cons_of_mem _ (hthread.nr i id' hnr),
    fun _ => ⟨(newNode, id) :: cells, ⟨hrep', hsub.cons_cons id,
      fun id' hid ho => ?_⟩, trivial⟩⟩
  · show (s.threads prio).newSocketQueueFutexShadow + 1
      = UInt32.ofNat ((s.threads prio).registered.length + 1)
    rw [hthread.shadow, UInt32.ofNat_add]
    rfl
  · rcases List.mem_cons.mp hid with rfl | hid
    · exact List.mem_cons_self
    · exact List.mem_cons_of_mem _ (hopen id' hid ho)

/-! ## The first loop -/

/-- **A pass starts.** -/
theorem PrioInv.tick_first (h : PrioInv s)
    (hpc : (s.threads prio).pc = .first)
    (hs : s.tick prio newNode = some t) : PrioInv t := by
  have hthread := h.thread prio
  have hcurrent : (s.threads prio).pc.current = none := by rw [hpc]; rfl
  obtain ⟨cells, hrep, hsub, hopen⟩ := hthread.holds (by rw [hpc]; simp)
  obtain ⟨list, hfirst, hrep', hat⟩ := hrep.listFirst_set
  unfold tick at hs
  simp only [hpc] at hs
  rw [hfirst] at hs
  obtain rfl := Option.some.inj hs
  refine h.goto hcurrent (hthread.goto ?_ rfl rfl hthread.nr
    (fun _ => ⟨cells, ⟨hrep', hsub, hopen⟩, 0, [], Nat.zero_le _, hat, rfl,
      List.nil_subset _, fun id hid => ?_⟩))
  · rw [hpc]
    rfl
  · rw [List.take_zero] at hid
    exact absurd hid (by simp)

/-- **The next cell of the first loop.** -/
theorem PrioInv.tick_next (h : PrioInv s)
    (hpc : (s.threads prio).pc = .next)
    (hs : s.tick prio newNode = some t) : PrioInv t := by
  have hcurrent : (s.threads prio).pc.current = none := by rw [hpc]; rfl
  have hpushed : (s.threads prio).pc.pushed = [] := by rw [hpc]; rfl
  obtain ⟨cells, ⟨hrep, hsub, hopen⟩, hinv⟩ :=
    (h.thread prio).list (by rw [hpc]; simp)
  rw [PcInv, hpc] at hinv
  obtain ⟨idx, listed, hle, hat | hnone, hrecords⟩ := hinv
  swap
  · -- the freed node
    unfold tick at hs
    simp only [hpc, hnone] at hs
    obtain rfl := Option.some.inj hs
    exact h.fault hcurrent hpushed
  unfold tick at hs
  simp only [hpc] at hs
  cases hc : cells[idx]? with
  | none =>
    have htake : cells.take idx = cells :=
      List.take_of_length_le (List.getElem?_eq_none_iff.mp hc)
    rw [htake] at hrecords
    have hall := hrecords.all ⟨hrep, hsub, hopen⟩
    rw [hrep.listNext_end hat hc hle] at hs
    obtain rfl := Option.some.inj hs
    have hgoto : ∀ pc, pc = .removing ∨ pc = .queueEntry →
        PrioInv (s.setThread prio { s.threads prio with pc := pc }) := by
      rintro pc (rfl | rfl) <;>
        exact h.advance hcurrent hpushed rfl
          ⟨cells, ⟨hrep, hsub, hopen⟩, listed, hall⟩
    refine hgoto _ ?_
    split
    · exact Or.inl rfl
    · exact Or.inr rfl
  | some c =>
    obtain ⟨hidx, -⟩ := List.getElem?_eq_some_iff.mp hc
    obtain ⟨list, hnext, hrep', hat'⟩ := hrep.listNext hat hc
    rw [hnext] at hs
    dsimp only at hs
    split at hs
    · obtain rfl := Option.some.inj hs
      exact h.advance hcurrent hpushed rfl
        ⟨cells, ⟨hrep', hsub, hopen⟩, idx, listed, c, hc, rfl, hat', hrecords⟩
    · rename_i hclosed
      obtain rfl := Option.some.inj hs
      refine h.advance hcurrent hpushed rfl
        ⟨cells, ⟨hrep', hsub, hopen⟩, idx + 1, listed, hidx, Or.inl hat', ?_⟩
      rw [map_take_succ hc]
      exact hrecords.skip (Bool.eq_false_iff.mpr hclosed)

/-- **The comparison of a futex with its shadow.** -/
theorem PrioInv.tick_comparing (h : PrioInv s)
    (hpc : (s.threads prio).pc = .comparing id)
    (hs : s.tick prio newNode = some t) : PrioInv t := by
  have hthread := h.thread prio
  have hcurrent : (s.threads prio).pc.current = none := by rw [hpc]; rfl
  have hpushed : (s.threads prio).pc.pushed = [] := by rw [hpc]; rfl
  obtain ⟨cells, hholds, hinv⟩ := hthread.list (by rw [hpc]; simp)
  rw [PcInv, hpc] at hinv
  unfold tick at hs
  simp only [hpc] at hs
  split at hs
  · obtain ⟨u, hcall, rfl⟩ := Option.map_eq_some_iff.mp hs
    have hinv' := hinv
    obtain ⟨idx, listed, c, hc, rfl, -⟩ := hinv'
    exact h.call hcurrent (hholds.mem_registered hc) hcall rfl
      (hthread.goto hpushed.symm rfl rfl hthread.nr
        (fun _ => ⟨cells, hholds, hinv⟩))
  · obtain rfl := Option.some.inj hs
    exact h.advance hcurrent hpushed rfl ⟨cells, hholds, hinv⟩

theorem ThreadInv.registered_nodup (h : ThreadInv s prio th) :
    th.registered.Nodup :=
  (List.nodup_append.mp (List.nodup_append.mp h.nodup).1).2.1

theorem ThreadInv.not_mem_take (h : ThreadInv s prio th)
    (hholds : s.Holds th cells) {idx : ℕ} {c : ℕ × PifusSocketIdentifier}
    (hc : cells[idx]? = some c) : c.2 ∉ (cells.take idx).map Prod.snd := by
  have hnodup : ((cells.take (idx + 1)).map Prod.snd).Nodup :=
    (h.registered_nodup.sublist hholds.2.1).sublist
      ((List.take_sublist (idx + 1) cells).map Prod.snd)
  rw [map_take_succ hc, List.nodup_append] at hnodup
  exact fun hmem =>
    hnodup.2.2 c.2 hmem c.2 (List.mem_singleton_self _) rfl

/-- **`handle_squeue_change` in the first loop** changes the shadow of a socket
that is not recorded yet. -/
theorem PrioInv.tick_handling (h : PrioInv s)
    (hpc : (s.threads prio).pc = .handling id)
    (hs : s.tick prio newNode = some t) : PrioInv t := by
  have hthread := h.thread prio
  have hcurrent : (s.threads prio).pc.current = some id := by rw [hpc]; rfl
  have hpushed : (s.threads prio).pc.pushed = [] := by rw [hpc]; rfl
  obtain ⟨cells, hholds, hinv⟩ := hthread.list (by rw [hpc]; simp)
  rw [PcInv, hpc] at hinv
  unfold tick at hs
  simp only [hpc] at hs
  refine h.handleSqueueChange hcurrent hs
    (hthread.goto hpushed.symm rfl rfl hthread.nr
      (fun _ => ⟨cells, hholds, hinv⟩))
    (fun sockets hsockets => ⟨hthread.nodup, hthread.handed, hthread.shadow,
      hthread.nr, fun _ => ⟨cells, hholds, ?_⟩⟩)
  obtain ⟨idx, listed, c, hc, rfl, hat, hrecords⟩ := hinv
  have hnot := hthread.not_mem_take hholds hc
  rw [PcInv, hpc]
  refine ⟨idx, listed, c, hc, rfl, hat, hrecords.frame (fun id' hid => ?_)
    (fun _ _ ho => ho)⟩
  exact congrArg SqueueState.shadow (hsockets id' (fun heq => hnot (heq ▸ hid)))

/-- **The entry of a socket is written.** -/
theorem PrioInv.tick_recording (h : PrioInv s)
    (hpc : (s.threads prio).pc = .recording id)
    (hs : s.tick prio newNode = some t) : PrioInv t := by
  have hthread := h.thread prio
  have hcurrent : (s.threads prio).pc.current = none := by rw [hpc]; rfl
  have hpushed : (s.threads prio).pc.pushed = [] := by rw [hpc]; rfl
  obtain ⟨cells, hholds, hinv⟩ := hthread.list (by rw [hpc]; simp)
  rw [PcInv, hpc] at hinv
  obtain ⟨idx, listed, c, hc, rfl, hat, hrecords⟩ := hinv
  obtain ⟨hidx, -⟩ := List.getElem?_eq_some_iff.mp hc
  unfold tick at hs
  simp only [hpc] at hs
  obtain rfl := Option.some.inj hs
  refine h.putWaitv hcurrent hpushed (hthread.goto hpushed.symm rfl rfl
    (fun i id hnr => ?_) (fun _ => ⟨cells, hholds, idx + 1, listed ++ [c.2], hidx,
      Or.inl hat, ?_⟩))
  · dsimp only at hnr
    by_cases heq : i = (s.threads prio).amountFutexes
    · rw [heq, Function.update_self] at hnr
      obtain rfl := SocketPtr.socket.inj hnr
      exact hholds.mem_registered hc
    · rw [Function.update_of_ne heq] at hnr
      exact hthread.nr i id hnr
  · rw [map_take_succ hc]
    exact hrecords.snoc

/-! ## The second loop -/

/-- The second loop starts. -/
theorem PrioInv.tick_removing (h : PrioInv s)
    (hpc : (s.threads prio).pc = .removing)
    (hs : s.tick prio newNode = some t) : PrioInv t := by
  have hcurrent : (s.threads prio).pc.current = none := by rw [hpc]; rfl
  have hpushed : (s.threads prio).pc.pushed = [] := by rw [hpc]; rfl
  obtain ⟨cells, ⟨hrep, hsub, hopen⟩, hinv⟩ :=
    (h.thread prio).list (by rw [hpc]; simp)
  rw [PcInv, hpc] at hinv
  obtain ⟨list, hfirst, hrep', hat⟩ := hrep.listFirst_set
  unfold tick at hs
  simp only [hpc] at hs
  rw [hfirst] at hs
  obtain rfl := Option.some.inj hs
  exact h.advance hcurrent hpushed rfl
    ⟨cells, ⟨hrep', hsub, hopen⟩, Nat.zero_le _, hat, hinv⟩

/-- A closed cell is taken out of what a thread holds. -/
theorem Holds.erase {l r : List (ℕ × PifusSocketIdentifier)}
    {c : ℕ × PifusSocketIdentifier} {list : LinkedList PifusSocketIdentifier}
    (h : s.Holds th (l ++ c :: r)) (hclosed : s.socketPtrs c.2 = false)
    (hrep : Represents list (l ++ r)) :
    s.Holds { th with list := list } (l ++ r) := by
  have hsub : (l ++ r).Sublist (l ++ c :: r) :=
    List.Sublist.append_left (List.sublist_cons_self c r) l
  refine ⟨hrep, (hsub.map Prod.snd).trans h.2.1, fun id hid ho => ?_⟩
  have hmem := h.2.2 id hid ho
  have hne : id ≠ c.2 := fun heq => by
    rw [heq, hclosed] at ho
    exact absurd ho (by simp)
  rw [List.map_append, List.mem_append] at hmem ⊢
  rw [List.map_cons, List.mem_cons] at hmem
  exact hmem.imp_right (fun hmem => hmem.resolve_left hne)

/-- The second loop counts the cells without overflow. -/
theorem PrioInv.length_lt (h : PrioInv s)
    (hholds : s.Holds (s.threads prio) cells) : cells.length < 2 ^ 16 := by
  have hthread := h.thread prio
  have hlen := hholds.2.1.length_le
  have hbound := length_le_of_inTables hthread.registered_nodup
    (fun id hid => h.tables prio id (hthread.mem_handed hid))
  simp only [maxAppAmount, maxSocketsPerApp] at hbound
  rw [List.length_map] at hlen
  omega

/-- **The next cell of the second loop.** -/
theorem PrioInv.tick_seeking {i : ℕ} (h : PrioInv s)
    (hpc : (s.threads prio).pc = .seeking i)
    (hs : s.tick prio newNode = some t) : PrioInv t := by
  have hcurrent : (s.threads prio).pc.current = none := by rw [hpc]; rfl
  have hpushed : (s.threads prio).pc.pushed = [] := by rw [hpc]; rfl
  obtain ⟨cells, ⟨hrep, hsub, hopen⟩, hinv⟩ :=
    (h.thread prio).list (by rw [hpc]; simp)
  rw [PcInv, hpc] at hinv
  obtain ⟨hle, hat | hnone, hrecords⟩ := hinv
  swap
  · unfold tick at hs
    simp only [hpc, hnone] at hs
    obtain rfl := Option.some.inj hs
    exact h.fault hcurrent hpushed
  unfold tick at hs
  simp only [hpc] at hs
  cases hc : cells[i]? with
  | none =>
    rw [hrep.listNext_end hat hc hle] at hs
    obtain rfl := Option.some.inj hs
    exact h.advance hcurrent hpushed rfl
      ⟨cells, ⟨hrep, hsub, hopen⟩, hrecords⟩
  | some c =>
    obtain ⟨hi, hget⟩ := List.getElem?_eq_some_iff.mp hc
    obtain ⟨list, hnext, hrep', hat'⟩ := hrep.listNext hat hc
    rw [hnext] at hs
    dsimp only at hs
    split at hs
    · have hlt : (i + 1) % 2 ^ 16 = i + 1 :=
        Nat.mod_eq_of_lt (Nat.lt_of_le_of_lt hi (h.length_lt ⟨hrep, hsub, hopen⟩))
      rw [hlt] at hs
      obtain rfl := Option.some.inj hs
      exact h.advance hcurrent hpushed rfl
        ⟨cells, ⟨hrep', hsub, hopen⟩, hi, Or.inl hat', hrecords⟩
    · rename_i hclosed
      have hcells : cells = cells.take i ++ c :: cells.drop (i + 1) := by
        rw [← hget, List.getElem_cons_drop, List.take_append_drop]
      have hlen : (cells.take i).length = i := List.length_take_of_le hle
      rw [hcells] at hrep'
      obtain ⟨list', hremove, hrep'', -⟩ := hrep'.listRemove
      rw [hlen] at hremove
      rw [hremove] at hs
      obtain rfl := Option.some.inj hs
      have hholds : s.Holds (s.threads prio)
          (cells.take i ++ c :: cells.drop (i + 1)) := by
        rw [← hcells]
        exact ⟨hrep, hsub, hopen⟩
      exact h.advance hcurrent hpushed rfl
        ⟨_, hholds.erase (Bool.eq_false_iff.mpr hclosed) hrep'', hrecords⟩

/-! ## `futex_waitv` -/

/-- **The entry of the new-socket queue is written.** -/
theorem PrioInv.tick_queueEntry (h : PrioInv s)
    (hpc : (s.threads prio).pc = .queueEntry)
    (hs : s.tick prio newNode = some t) : PrioInv t := by
  have hthread := h.thread prio
  have hcurrent : (s.threads prio).pc.current = none := by rw [hpc]; rfl
  have hpushed : (s.threads prio).pc.pushed = [] := by rw [hpc]; rfl
  obtain ⟨cells, hholds, hinv⟩ := hthread.list (by rw [hpc]; simp)
  rw [PcInv, hpc] at hinv
  obtain ⟨listed, hrecords⟩ := hinv
  unfold tick at hs
  simp only [hpc] at hs
  obtain rfl := Option.some.inj hs
  exact h.putWaitv hcurrent hpushed (hthread.goto hpushed.symm rfl rfl
    hthread.nr (fun _ => ⟨cells, hholds, _, listed, rfl, hrecords⟩))

/-- **A thread blocks**, or finds a word that has changed. -/
theorem PrioInv.tick_waiting (h : PrioInv s)
    (hpc : (s.threads prio).pc = .waiting)
    (hown : s.passed prio = (s.threads prio).written)
    (hs : s.tick prio newNode = some t) : PrioInv t := by
  have hcurrent : (s.threads prio).pc.current = none := by rw [hpc]; rfl
  have hpushed : (s.threads prio).pc.pushed = [] := by rw [hpc]; rfl
  obtain ⟨cells, hholds, hinv⟩ := (h.thread prio).list (by rw [hpc]; simp)
  rw [PcInv, hpc] at hinv
  obtain ⟨entries, listed, hwritten, hrecords⟩ := hinv
  unfold tick at hs
  simp only [hpc] at hs
  split at hs
  · rename_i hvals
    obtain rfl := Option.some.inj hs
    exact h.advance hcurrent hpushed rfl
      ⟨cells, hholds, entries, listed, hown.trans hwritten, hrecords, hvals⟩
  · obtain rfl := Option.some.inj hs
    exact h.advance hcurrent hpushed rfl ⟨cells, hholds, trivial⟩

/-- **A thread is woken** and looks up the socket. -/
theorem PrioInv.tick_woken {retCode : ℕ} (h : PrioInv s)
    (hpc : (s.threads prio).pc = .woken retCode)
    (hs : s.tick prio newNode = some t) : PrioInv t := by
  have hthread := h.thread prio
  have hcurrent : (s.threads prio).pc.current = none := by rw [hpc]; rfl
  have hpushed : (s.threads prio).pc.pushed = [] := by rw [hpc]; rfl
  obtain ⟨cells, hholds⟩ := hthread.holds (by rw [hpc]; simp)
  unfold tick at hs
  simp only [hpc] at hs
  split at hs
  · obtain rfl := Option.some.inj hs
    exact h.advance hcurrent hpushed rfl ⟨cells, hholds, trivial⟩
  · rename_i id hnr
    obtain ⟨u, hcall, rfl⟩ := Option.map_eq_some_iff.mp hs
    have hid := hthread.nr retCode id hnr
    exact h.call hcurrent hid hcall rfl (hthread.goto hpushed.symm rfl rfl
      hthread.nr (fun _ => ⟨cells, hholds, hid⟩))
  · obtain rfl := Option.some.inj hs
    exact h.fault hcurrent hpushed

/-- **`handle_squeue_change` behind `futex_waitv`**, where nothing is recorded. -/
theorem PrioInv.tick_serving (h : PrioInv s)
    (hpc : (s.threads prio).pc = .serving id)
    (hs : s.tick prio newNode = some t) : PrioInv t := by
  have hthread := h.thread prio
  have hcurrent : (s.threads prio).pc.current = some id := by rw [hpc]; rfl
  have hpushed : (s.threads prio).pc.pushed = [] := by rw [hpc]; rfl
  obtain ⟨cells, hholds, hinv⟩ := hthread.list (by rw [hpc]; simp)
  unfold tick at hs
  simp only [hpc] at hs
  refine h.handleSqueueChange hcurrent hs
    (hthread.goto hpushed.symm rfl rfl hthread.nr
      (fun _ => ⟨cells, hholds, trivial⟩))
    (fun sockets _ => ⟨hthread.nodup, hthread.handed, hthread.shadow,
      hthread.nr, fun _ => ⟨cells, hholds, ?_⟩⟩)
  rw [PcInv, hpc] at hinv ⊢
  exact hinv

/-- `memset`. -/
theorem PrioInv.tick_clearing (h : PrioInv s)
    (hpc : (s.threads prio).pc = .clearing)
    (hs : s.tick prio newNode = some t) : PrioInv t := by
  have hthread := h.thread prio
  have hcurrent : (s.threads prio).pc.current = none := by rw [hpc]; rfl
  have hpushed : (s.threads prio).pc.pushed = [] := by rw [hpc]; rfl
  obtain ⟨cells, hholds⟩ := hthread.holds (by rw [hpc]; simp)
  unfold tick at hs
  simp only [hpc] at hs
  obtain rfl := Option.some.inj hs
  exact h.goto hcurrent (hthread.goto hpushed.symm rfl rfl
    (fun _ _ hnr => absurd hnr (by simp)) (fun _ => ⟨cells, hholds, trivial⟩))

/-! ## Runs -/

/-- **Every step of a prio thread keeps the invariant**, if it waits with its
own entries. -/
theorem PrioInv.tick (h : PrioInv s)
    (hown : s.PassesOwn (.tick prio newNode))
    (hs : s.tick prio newNode = some t) : PrioInv t := by
  cases hpc : (s.threads prio).pc with
  | draining => exact h.tick_draining hpc hs
  | pushing id => exact h.tick_pushing hpc hs
  | first => exact h.tick_first hpc hs
  | next => exact h.tick_next hpc hs
  | comparing id => exact h.tick_comparing hpc hs
  | handling id => exact h.tick_handling hpc hs
  | recording id => exact h.tick_recording hpc hs
  | removing => exact h.tick_removing hpc hs
  | seeking i => exact h.tick_seeking hpc hs
  | queueEntry => exact h.tick_queueEntry hpc hs
  | waiting => exact h.tick_waiting hpc (hown hpc) hs
  | woken retCode => exact h.tick_woken hpc hs
  | serving id => exact h.tick_serving hpc hs
  | clearing => exact h.tick_clearing hpc hs
  | blocked copied | faulted =>
    unfold PrioState.tick at hs
    simp only [hpc] at hs
    exact absurd hs (by simp)

/-- `futex_waitv` is interrupted. -/
theorem PrioInv.interrupt (h : PrioInv s)
    (hs : prioStep s (.interrupt prio) = some t) : PrioInv t := by
  rw [prioStep] at hs
  split at hs
  · rename_i copied hpc
    have hthread := h.thread prio
    obtain rfl := Option.some.inj hs
    obtain ⟨cells, hholds⟩ := hthread.holds (by rw [hpc]; simp)
    refine h.goto (by rw [hpc]; rfl) (hthread.goto ?_ rfl rfl hthread.nr
      (fun _ => ⟨cells, hholds, trivial⟩))
    rw [hpc]
    rfl
  · exact absurd hs (by simp)

/-- **Every step keeps the invariant**, whoever takes it. -/
theorem PrioInv.step {e : PrioEvent α} (h : PrioInv s) (hown : s.PassesOwn e)
    (hs : prioStep s e = some t) : PrioInv t := by
  cases e with
  | enqueue id op => exact h.stepSocket hs (by simp) (by simp) (by simp)
  | announce id =>
    obtain ⟨u, hu, rfl⟩ := Option.map_eq_some_iff.mp hs
    exact h.announce hu
  | others id txQueue dequeuedOps =>
    exact h.stepSocket hs (by simp) (by simp) (by simp)
  | handOver prio id => exact h.handOver hs
  | announceSocket =>
    obtain ⟨prio, hhanding, rfl⟩ := Option.map_eq_some_iff.mp hs
    exact h.announceSocket hhanding
  | close id =>
    obtain rfl := Option.some.inj hs
    exact h.close
  | tick prio newNode => exact h.tick hown hs
  | interrupt prio => exact h.interrupt hs

/-- A socket that has just been created. -/
def idleSocket : SqueueState ℕ :=
  ⟨3, .create (fun _ => 0) squeueSize squeueSize_pos squeueSize_lt, 0, 0, 0, 0,
    .create (fun _ => ⟨0, 0⟩) txQueueSize txQueueSize_pos txQueueSize_lt, .outside,
    .outside, [], 0, []⟩

/-- The prio threads of an idle machine. -/
def started : PrioState ℕ :=
  ⟨fun _ => idleSocket, fun _ => false,
    fun _ => .create (fun _ => ⟨0, 0⟩) discoveryMaxNewSockets
      discoveryMaxNewSockets_pos discoveryMaxNewSockets_lt,
    fun _ => 0, none, fun _ => ⟨.socketQueueFutex .low, 0⟩,
    fun _ => startThread 0 (fun _ => false), fun _ => []⟩

end PrioState
