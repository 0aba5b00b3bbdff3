import Mathlib.Data.List.Nodup
import Pifus.Util.DoublyLinked

/-!
# The linked list of a prio thread

The functions of `list/linked_list.c` that a prio thread uses, on the nodes in
memory. The nodes are a ring, and `head_` is the first of them. A `List` has
one iterator, `iter_round_` and `iter_node_`, which `ListFirst` sets and
`ListNext` moves on; nothing else looks at it, `ListRemove` included.

A pointer is the address of a node, or `NULL`. A function that reads or writes
a node that is not allocated has no result. `malloc` is taken to succeed; the
address it returns is an argument. There are fewer nodes than an `unsigned`
counts.

A list holds its cells: the address and the element of each node, front first
(`Represents`).
-/

/-- `ListNode`. -/
structure ListNode (α : Type) where
  element : α
  pred : ℕ
  succ : ℕ
  deriving DecidableEq

/-- `List`, with its `ListData` and its nodes. -/
structure LinkedList (α : Type) where
  /-- The nodes that are allocated. -/
  nodes : ℕ → Option (ListNode α)
  size : ℕ
  iterRound : ℕ
  head : Option ℕ
  iterNode : Option ℕ

namespace LinkedList

variable {α : Type}

/-- `ListInit`, which leaves `iter_round_` as it is in the memory it gets. -/
def listInit (iterRound : ℕ) : LinkedList α :=
  ⟨fun _ => none, 0, iterRound, none, none⟩

/-- `node->succ_ = s`. -/
def setSucc (nodes : ℕ → Option (ListNode α)) (node s : ℕ) :
    Option (ℕ → Option (ListNode α)) :=
  (nodes node).map (fun n =>
    Function.update nodes node (some { n with succ := s }))

/-- `node->pred_ = p`. -/
def setPred (nodes : ℕ → Option (ListNode α)) (node p : ℕ) :
    Option (ℕ → Option (ListNode α)) :=
  (nodes node).map (fun n =>
    Function.update nodes node (some { n with pred := p }))

/-- `ListPushFront`. -/
def listPushFront (self : LinkedList α) (newNode : ℕ) (element : α) :
    Option (LinkedList α) :=
  match self.head with
  | none => some { self with
      nodes := Function.update self.nodes newNode
        (some ⟨element, newNode, newNode⟩)
      head := some newNode
      size := self.size + 1 }
  | some head => do
    let h ← self.nodes head
    let nodes := Function.update self.nodes newNode
      (some ⟨element, h.pred, head⟩)
    let nodes ← setSucc nodes h.pred newNode
    let nodes ← setPred nodes head newNode
    some { self with
      nodes := nodes, head := some newNode, size := self.size + 1 }

/-- `ListFirst`. Of an empty list it leaves the iterator as it is. -/
def listFirst (self : LinkedList α) (isReverse : Bool) :
    Option (LinkedList α) :=
  match self.head with
  | none => some self
  | some head => do
    let h ← self.nodes head
    some { self with
      iterRound := 0
      iterNode := some (if isReverse then h.pred else head) }

/-- `ListNext`: the element, if there is a next one. -/
def listNext (self : LinkedList α) : Option (Option α × LinkedList α) :=
  if self.iterRound = self.size then some (none, self)
  else do
    let iterNode ← self.iterNode
    let n ← self.nodes iterNode
    some (some n.element, { self with
      iterNode := some n.succ, iterRound := self.iterRound + 1 })

/-- The node `idx` links behind a node. -/
def track (nodes : ℕ → Option (ListNode α)) : ℕ → ℕ → Option ℕ
  | 0, node => some node
  | idx + 1, node => do
    let n ← nodes node
    track nodes idx n.succ

/-- `ListRemove`. -/
def listRemove (self : LinkedList α) (idx : ℕ) :
    Option (Bool × LinkedList α) :=
  if self.size ≤ idx then some (false, self)
  else do
    let head ← self.head
    let removed ← track self.nodes idx head
    let n ← self.nodes removed
    let nodes ← setSucc self.nodes n.pred n.succ
    let nodes ← setPred nodes n.succ n.pred
    some (true, { self with
      -- `free(track)`
      nodes := Function.update nodes removed none
      head :=
        if self.size = 1 then none
        else if removed = head then some n.succ else some head
      size := self.size - 1 })

/-! ## What the pointers say -/

/-- The `succ_` of each node. -/
def succOf (nodes : ℕ → Option (ListNode α)) (node : ℕ) : Option ℕ :=
  (nodes node).map ListNode.succ

/-- The `pred_` of each node. -/
def predOf (nodes : ℕ → Option (ListNode α)) (node : ℕ) : Option ℕ :=
  (nodes node).map ListNode.pred

/-- The `element_` of each node. -/
def elementOf (nodes : ℕ → Option (ListNode α)) (node : ℕ) : Option α :=
  (nodes node).map ListNode.element

variable {nodes : ℕ → Option (ListNode α)} {node a : ℕ}

theorem map_update {β : Type} (f : ListNode α → β) (n : Option (ListNode α)) :
    (fun a => (Function.update nodes node n a).map f)
      = Function.update (fun a => (nodes a).map f) node (n.map f) := by
  funext a
  by_cases h : a = node
  · rw [h, Function.update_self, Function.update_self]
  · rw [Function.update_of_ne h, Function.update_of_ne h]

theorem map_update_same {β : Type} {f : ListNode α → β} {n n' : ListNode α}
    (h : nodes node = some n) (hf : f n' = f n) :
    (fun a => (Function.update nodes node (some n') a).map f)
      = fun a => (nodes a).map f := by
  rw [map_update, Option.map_some, hf]
  refine Function.update_eq_self_iff.mpr ?_
  rw [h]
  rfl

/-- **An assignment to `succ_`** of a node that is there. -/
theorem setSucc_spec {n : ListNode α} (h : nodes node = some n) (s : ℕ) :
    ∃ nodes', setSucc nodes node s = some nodes'
      ∧ succOf nodes' = Function.update (succOf nodes) node (some s)
      ∧ predOf nodes' = predOf nodes ∧ elementOf nodes' = elementOf nodes := by
  refine ⟨_, by rw [setSucc, h]; rfl, ?_, ?_, ?_⟩
  · exact map_update ListNode.succ _
  · exact map_update_same h rfl
  · exact map_update_same h rfl

/-- **An assignment to `pred_`** of a node that is there. -/
theorem setPred_spec {n : ListNode α} (h : nodes node = some n) (p : ℕ) :
    ∃ nodes', setPred nodes node p = some nodes'
      ∧ predOf nodes' = Function.update (predOf nodes) node (some p)
      ∧ succOf nodes' = succOf nodes ∧ elementOf nodes' = elementOf nodes := by
  refine ⟨_, by rw [setPred, h]; rfl, ?_, ?_, ?_⟩
  · exact map_update ListNode.pred _
  · exact map_update_same h rfl
  · exact map_update_same h rfl

theorem exists_node {el : α} (h : elementOf nodes node = some el) :
    ∃ n, nodes node = some n ∧ n.element = el :=
  Option.map_eq_some_iff.mp h

/-! ## The cells of a list -/

/-- **A list holds its cells**: its nodes are a ring in this order, with these
elements, and no other node is allocated. -/
structure Represents (list : LinkedList α) (cells : List (ℕ × α)) : Prop where
  nodup : (cells.map Prod.fst).Nodup
  size : list.size = cells.length
  head : list.head = (cells.map Prod.fst).head?
  ring : DoublyLinked.Ring (succOf list.nodes) (predOf list.nodes)
    (cells.map Prod.fst)
  element : ∀ c ∈ cells, elementOf list.nodes c.1 = some c.2
  alloc : ∀ a, a ∉ cells.map Prod.fst → list.nodes a = none

variable {self : LinkedList α} {cells : List (ℕ × α)} {el : α} {newNode : ℕ}

theorem Represents.exists_node {c : ℕ × α} (h : Represents self cells)
    (hc : c ∈ cells) : ∃ n, self.nodes c.1 = some n ∧ n.element = c.2 :=
  LinkedList.exists_node (h.element c hc)

theorem Represents.exists_node_of_mem (h : Represents self cells)
    (ha : a ∈ cells.map Prod.fst) : ∃ n, self.nodes a = some n := by
  obtain ⟨c, hc, rfl⟩ := List.mem_map.mp ha
  obtain ⟨n, hn, -⟩ := h.exists_node hc
  exact ⟨n, hn⟩

theorem represents_listInit (iterRound : ℕ) :
    Represents (listInit iterRound : LinkedList α) [] where
  nodup := List.nodup_nil
  size := rfl
  head := rfl
  ring := DoublyLinked.ring_nil
  element := fun _ hc => absurd hc (by simp)
  alloc := fun _ _ => rfl

/-- The elements with a new node. -/
theorem Represents.elements_cons (h : Represents self cells)
    (hnot : newNode ∉ cells.map Prod.fst)
    (hnodes : elementOf nodes
      = Function.update (elementOf self.nodes) newNode (some el)) :
    (∀ c ∈ (newNode, el) :: cells, elementOf nodes c.1 = some c.2)
      ∧ ∀ a, a ∉ newNode :: cells.map Prod.fst → nodes a = none := by
  refine ⟨fun c hc => ?_, fun a ha => ?_⟩
  · rw [hnodes]
    rcases List.mem_cons.mp hc with rfl | hc
    · rw [Function.update_self]
    · have hne : c.1 ≠ newNode := fun heq =>
        hnot (heq ▸ List.mem_map_of_mem hc)
      rw [Function.update_of_ne hne]
      exact h.element c hc
  · rw [List.mem_cons, not_or] at ha
    have hnone : elementOf nodes a = none := by
      rw [hnodes, Function.update_of_ne ha.1, elementOf, h.alloc a ha.2]
      rfl
    exact Option.map_eq_none_iff.mp hnone

/-- **`ListPushFront`** puts a cell in front and leaves the iterator alone. -/
theorem Represents.listPushFront (h : Represents self cells)
    (hnew : self.nodes newNode = none) :
    ∃ self', self.listPushFront newNode el = some self'
      ∧ Represents self' ((newNode, el) :: cells)
      ∧ self'.iterRound = self.iterRound ∧ self'.iterNode = self.iterNode := by
  have hnot : newNode ∉ cells.map Prod.fst := fun hmem => by
    obtain ⟨n, hn⟩ := h.exists_node_of_mem hmem
    exact absurd (hnew.symm.trans hn) (by simp)
  have hnodup : (newNode :: cells.map Prod.fst).Nodup :=
    List.nodup_cons.mpr ⟨hnot, h.nodup⟩
  have hhead := h.head
  cases cells with
  | nil =>
    have hpush : self.listPushFront newNode el = some { self with
        nodes := Function.update self.nodes newNode
          (some ⟨el, newNode, newNode⟩)
        head := some newNode
        size := self.size + 1 } := by
      rw [LinkedList.listPushFront, hhead]
      rfl
    have hel : elementOf (Function.update self.nodes newNode
        (some ⟨el, newNode, newNode⟩))
        = Function.update (elementOf self.nodes) newNode (some el) :=
      map_update ListNode.element _
    obtain ⟨hel, halloc⟩ := h.elements_cons hnot hel
    refine ⟨_, hpush, ⟨hnodup, ?_, rfl, ?_, hel, halloc⟩, rfl, rfl⟩
    · show self.size + 1 = _
      rw [h.size]
      rfl
    · refine DoublyLinked.ring_singleton.mpr ⟨?_, ?_⟩
      · show (Function.update self.nodes newNode _ newNode).map _ = _
        rw [Function.update_self]
        rfl
      · show (Function.update self.nodes newNode _ newNode).map _ = _
        rw [Function.update_self]
        rfl
  | cons c cells =>
    obtain ⟨z, hz, hpred, -⟩ := h.ring.exists_pred
    obtain ⟨hn, hhn, rfl⟩ := Option.map_eq_some_iff.mp hpred
    -- the new node
    let nodes₁ := Function.update self.nodes newNode
      (some ⟨el, hn.pred, c.1⟩)
    have hsucc₁ : succOf nodes₁
        = Function.update (succOf self.nodes) newNode (some c.1) :=
      map_update ListNode.succ _
    have hpred₁ : predOf nodes₁
        = Function.update (predOf self.nodes) newNode (some hn.pred) :=
      map_update ListNode.pred _
    have hel₁ : elementOf nodes₁
        = Function.update (elementOf self.nodes) newNode (some el) :=
      map_update ListNode.element _
    obtain ⟨hel, halloc⟩ := h.elements_cons hnot hel₁
    -- the last node and the first one are linked with it
    rw [← List.map_cons] at hz
    obtain ⟨d, hd, hdz⟩ := List.mem_map.mp hz
    obtain ⟨m₁, hm₁, -⟩ :=
      LinkedList.exists_node (hel d (List.mem_cons_of_mem _ hd))
    rw [hdz] at hm₁
    obtain ⟨nodes₂, hset₂, hsucc₂, hpred₂, hel₂⟩ := setSucc_spec hm₁ newNode
    obtain ⟨m₂, hm₂, -⟩ := LinkedList.exists_node
      ((congrFun hel₂ c.1).trans (hel c (by simp)))
    obtain ⟨nodes₃, hset₃, hpred₃, hsucc₃, hel₃⟩ := setPred_spec hm₂ newNode
    have hpush : self.listPushFront newNode el = some { self with
        nodes := nodes₃, head := some newNode, size := self.size + 1 } := by
      rw [LinkedList.listPushFront, hhead]
      simp only [List.map_cons, List.head?_cons, hhn, Option.bind_eq_bind,
        Option.bind_some]
      rw [hset₂, Option.bind_some, hset₃, Option.bind_some]
    have hel' := hel₃.trans (hel₂.trans hel₁)
    obtain ⟨hel, halloc⟩ := h.elements_cons hnot hel'
    refine ⟨_, hpush, ⟨hnodup, ?_, rfl, ?_, hel, halloc⟩, rfl, rfl⟩
    · show self.size + 1 = _
      rw [h.size]
      rfl
    · refine h.ring.insert hnodup hpred (fun a _ => ?_) (fun a _ => ?_)
      · show succOf nodes₃ a = _
        rw [hsucc₃, hsucc₂, hsucc₁]
      · show predOf nodes₃ a = _
        rw [hpred₃, hpred₂, hpred₁]

/-! ## The iterator -/

/-- **The iterator is at a cell**: `idx` cells have been passed, and unless
these are all, the next one is `iter_node_`. -/
def At (list : LinkedList α) (cells : List (ℕ × α)) (idx : ℕ) : Prop :=
  list.iterRound = idx
    ∧ ∀ c, cells[idx]? = some c → list.iterNode = some c.1

theorem Represents.succ_getElem {idx : ℕ} {c c' : ℕ × α} {n : ListNode α}
    (h : Represents self cells) (hc : cells[idx]? = some c)
    (hc' : cells[idx + 1]? = some c') (hn : self.nodes c.1 = some n) :
    n.succ = c'.1 := by
  obtain ⟨hidx, rfl⟩ := List.getElem?_eq_some_iff.mp hc
  obtain ⟨hidx', rfl⟩ := List.getElem?_eq_some_iff.mp hc'
  have hlinked := (h.ring.isChain.getElem idx
    (by rw [List.length_map]; exact hidx')).1
  rw [List.getElem_map, List.getElem_map, succOf, hn] at hlinked
  exact Option.some.inj hlinked

/-- **`ListFirst`** of a list that is not empty sets the iterator to the
front. -/
theorem Represents.listFirst (h : Represents self cells) (hne : cells ≠ []) :
    ∃ self', self.listFirst false = some self' ∧ Represents self' cells
      ∧ At self' cells 0 := by
  obtain ⟨c, rest, rfl⟩ := List.exists_cons_of_ne_nil hne
  obtain ⟨n, hn, -⟩ := h.exists_node List.mem_cons_self
  have hfirst : self.listFirst false = some { self with
      iterRound := 0, iterNode := some c.1 } := by
    rw [LinkedList.listFirst, h.head]
    simp only [List.map_cons, List.head?_cons, hn, Option.bind_eq_bind,
      Option.bind_some, Bool.false_eq_true, if_false]
  refine ⟨_, hfirst, ⟨h.nodup, h.size, h.head, h.ring, h.element, h.alloc⟩, rfl,
    fun d hd => ?_⟩
  obtain rfl := Option.some.inj hd
  rfl

/-- `ListFirst` of an empty list leaves the iterator alone. -/
theorem Represents.listFirst_nil (h : Represents self []) (isReverse : Bool) :
    self.listFirst isReverse = some self := by
  rw [LinkedList.listFirst, h.head]
  rfl

/-- In an empty list whose iterator is not at its start, `ListNext` reads a
node that is not there. -/
theorem Represents.listNext_stale (h : Represents self [])
    (hstale : self.iterRound ≠ 0) : self.listNext = none := by
  rw [LinkedList.listNext, if_neg (by rw [h.size]; exact hstale)]
  cases self.iterNode with
  | none => rfl
  | some a =>
    rw [Option.bind_eq_bind, Option.bind_some, h.alloc a (by simp)]
    rfl

/-- **`ListFirst` in front of a loop** sets the iterator to the front, unless
`ListNext` is about to read a node that is not there. -/
theorem Represents.listFirst_set (h : Represents self cells) :
    ∃ self', self.listFirst false = some self' ∧ Represents self' cells
      ∧ (At self' cells 0 ∨ self'.listNext = none) := by
  by_cases hne : cells = []
  · subst hne
    refine ⟨self, h.listFirst_nil false, h, ?_⟩
    by_cases hround : self.iterRound = 0
    · exact Or.inl ⟨hround, fun c hc => absurd hc (by simp)⟩
    · exact Or.inr (h.listNext_stale hround)
  · obtain ⟨self', hfirst, hrep, hat⟩ := h.listFirst hne
    exact ⟨self', hfirst, hrep, Or.inl hat⟩

/-- **`ListNext`** hands out the element of the cell the iterator is at. -/
theorem Represents.listNext {idx : ℕ} {c : ℕ × α} (h : Represents self cells)
    (hat : At self cells idx) (hc : cells[idx]? = some c) :
    ∃ self', self.listNext = some (some c.2, self') ∧ Represents self' cells
      ∧ At self' cells (idx + 1) := by
  obtain ⟨hidx, hget⟩ := List.getElem?_eq_some_iff.mp hc
  have hmem : c ∈ cells := hget ▸ List.getElem_mem hidx
  obtain ⟨n, hn, hel⟩ := h.exists_node hmem
  have hne : self.iterRound ≠ self.size := by
    rw [hat.1, h.size]
    exact Nat.ne_of_lt hidx
  have hnext : self.listNext = some (some c.2, { self with
      iterNode := some n.succ, iterRound := self.iterRound + 1 }) := by
    rw [LinkedList.listNext, if_neg hne, hat.2 c hc]
    simp only [Option.bind_eq_bind, Option.bind_some, hn, hel]
  refine ⟨_, hnext, ⟨h.nodup, h.size, h.head, h.ring, h.element, h.alloc⟩, ?_,
    fun d hd => ?_⟩
  · show self.iterRound + 1 = idx + 1
    rw [hat.1]
  · rw [← h.succ_getElem hc hd hn]

theorem Represents.listNext_end {idx : ℕ} (h : Represents self cells)
    (hat : At self cells idx) (hend : cells[idx]? = none)
    (hle : idx ≤ cells.length) :
    self.listNext = some (none, self) := by
  have heq : self.iterRound = self.size := by
    rw [hat.1, h.size]
    exact Nat.le_antisymm hle (List.getElem?_eq_none_iff.mp hend)
  rw [LinkedList.listNext, if_pos heq]

/-! ## Removing a cell -/

/-- The walk of `ListRemove` from the cell with the number `k` on. -/
theorem Represents.track {idx k : ℕ} {c c' : ℕ × α} (h : Represents self cells)
    (hc : cells[k]? = some c) (hc' : cells[k + idx]? = some c') :
    LinkedList.track self.nodes idx c.1 = some c'.1 := by
  induction idx generalizing k c with
  | zero =>
    obtain rfl := Option.some.inj (hc.symm.trans hc')
    rfl
  | succ idx ih =>
    obtain ⟨hidx, hget⟩ := List.getElem?_eq_some_iff.mp hc
    have hmem : c ∈ cells := hget ▸ List.getElem_mem hidx
    obtain ⟨n, hn, -⟩ := h.exists_node hmem
    obtain ⟨hlt, -⟩ := List.getElem?_eq_some_iff.mp hc'
    have hnext : cells[k + 1]? = some cells[k + 1] :=
      List.getElem?_eq_getElem (by omega)
    rw [LinkedList.track, hn, Option.bind_eq_bind, Option.bind_some,
      h.succ_getElem hc hnext hn]
    refine ih hnext ?_
    rw [← hc', Nat.add_assoc, Nat.add_comm 1]

theorem Represents.exists_front (h : Represents self cells) (hne : cells ≠ []) :
    ∃ d, cells[0]? = some d ∧ self.head = some d.1 := by
  obtain ⟨d, rest, rfl⟩ := List.exists_cons_of_ne_nil hne
  exact ⟨d, rfl, h.head⟩

/-- The front of a list when a cell is taken out. -/
theorem Represents.head_erase {l r : List (ℕ × α)} {c d : ℕ × α}
    {n : ListNode α} (h : Represents self (l ++ c :: r))
    (hn : self.nodes c.1 = some n) (hd : (l ++ c :: r)[0]? = some d) :
    (if self.size = 1 then none else if c.1 = d.1 then some n.succ else some d.1)
      = ((l ++ r).map Prod.fst).head? := by
  have hsize := h.size
  cases l with
  | nil =>
    obtain rfl := Option.some.inj hd
    cases r with
    | nil => rw [hsize, if_pos rfl]; rfl
    | cons e r =>
      rw [hsize, if_neg (by simp), if_pos rfl, h.succ_getElem hd rfl hn]
      rfl
  | cons e l =>
    obtain rfl := Option.some.inj hd
    have hne : c.1 ≠ e.1 := fun heq => by
      have hnodup := h.nodup
      rw [List.cons_append, List.map_cons, List.nodup_cons] at hnodup
      refine hnodup.1 (heq ▸ List.mem_map_of_mem (by simp))
    rw [hsize, if_neg (by simp), if_neg hne]
    rfl

/-- **`ListRemove`** takes a cell out, frees its node and leaves the iterator
alone. -/
theorem Represents.listRemove {l r : List (ℕ × α)} {c : ℕ × α}
    (h : Represents self (l ++ c :: r)) :
    ∃ self', self.listRemove l.length = some (true, self')
      ∧ Represents self' (l ++ r)
      ∧ self'.iterRound = self.iterRound ∧ self'.iterNode = self.iterNode := by
  have hmem : c ∈ l ++ c :: r := by simp
  obtain ⟨n, hn, -⟩ := h.exists_node hmem
  have hsucc : succOf self.nodes c.1 = some n.succ := by rw [succOf, hn]; rfl
  have hpred : predOf self.nodes c.1 = some n.pred := by rw [predOf, hn]; rfl
  -- the ring from the removed node on
  have hperm : (c.1 :: (r.map Prod.fst ++ l.map Prod.fst)).Perm
      ((l ++ c :: r).map Prod.fst) := by
    rw [List.map_append, List.map_cons, ← List.cons_append]
    exact List.perm_append_comm
  have hring := h.ring
  rw [List.map_append, List.map_cons, DoublyLinked.ring_append_comm,
    List.cons_append] at hring
  obtain ⟨hnot, hrest⟩ := List.nodup_cons.mp (hperm.nodup_iff.mpr h.nodup)
  -- the assignments
  obtain ⟨z, hz, hz', -⟩ := hring.exists_pred
  obtain rfl := Option.some.inj (hpred.symm.trans hz')
  obtain ⟨y, hy, hy', -⟩ := hring.exists_succ
  obtain rfl := Option.some.inj (hsucc.symm.trans hy')
  obtain ⟨m₁, hm₁⟩ := h.exists_node_of_mem (hperm.mem_iff.mp hz)
  obtain ⟨nodes₁, hset₁, hsucc₁, hpred₁, hel₁⟩ := setSucc_spec hm₁ n.succ
  obtain ⟨m₂, hm₂⟩ := h.exists_node_of_mem (hperm.mem_iff.mp hy)
  have hm₂ : elementOf nodes₁ n.succ = some m₂.element := by
    rw [hel₁, elementOf, hm₂]
    rfl
  obtain ⟨m₂, hm₂, -⟩ := LinkedList.exists_node hm₂
  obtain ⟨nodes₂, hset₂, hpred₂, hsucc₂, hel₂⟩ := setPred_spec hm₂ n.pred
  obtain ⟨d, hd, hhead⟩ := h.exists_front (List.ne_nil_of_mem hmem)
  have hsize : ¬ self.size ≤ l.length := by
    rw [h.size, List.length_append, List.length_cons]
    omega
  have htrack : LinkedList.track self.nodes l.length d.1 = some c.1 :=
    h.track hd (by simp)
  have hremove : self.listRemove l.length = some (true, { self with
      nodes := Function.update nodes₂ c.1 none
      head := ((l ++ r).map Prod.fst).head?
      size := self.size - 1 }) := by
    rw [LinkedList.listRemove, if_neg hsize, hhead, ← h.head_erase hn hd]
    simp only [Option.bind_eq_bind, Option.bind_some, htrack, hn]
    rw [hset₁, Option.bind_some, hset₂, Option.bind_some]
  have hel : elementOf (Function.update nodes₂ c.1 none)
      = Function.update (elementOf self.nodes) c.1 none := by
    rw [← hel₁, ← hel₂]
    exact map_update ListNode.element none
  refine ⟨_, hremove, ⟨?_, ?_, rfl, ?_, ?_, ?_⟩, rfl, rfl⟩
  · rw [List.map_append]
    exact List.perm_append_comm.nodup_iff.mp hrest
  · show self.size - 1 = _
    rw [h.size, List.length_append, List.length_append, List.length_cons]
    rfl
  · rw [List.map_append, DoublyLinked.ring_append_comm]
    refine hring.erase hnot hsucc hpred (fun a ha => ?_) (fun a ha => ?_)
    · have hne : a ≠ c.1 := fun heq => hnot (heq ▸ ha)
      show succOf (Function.update nodes₂ c.1 none) a = _
      rw [succOf, Function.update_of_ne hne, ← succOf, hsucc₂, hsucc₁]
    · have hne : a ≠ c.1 := fun heq => hnot (heq ▸ ha)
      show predOf (Function.update nodes₂ c.1 none) a = _
      rw [predOf, Function.update_of_ne hne, ← predOf, hpred₂, hpred₁]
  · intro e he
    have hne : e.1 ≠ c.1 := fun heq => hnot (heq ▸ by
      rw [← List.map_append]
      refine List.mem_map_of_mem ?_
      rw [List.mem_append] at he ⊢
      exact he.symm)
    show elementOf (Function.update nodes₂ c.1 none) e.1 = _
    rw [hel, Function.update_of_ne hne]
    refine h.element e ?_
    rcases List.mem_append.mp he with hl | hr
    · exact List.mem_append_left _ hl
    · exact List.mem_append_right _ (List.mem_cons_of_mem _ hr)
  · intro a ha
    have hnone : elementOf (Function.update nodes₂ c.1 none) a = none := by
      rw [hel]
      by_cases heq : a = c.1
      · rw [heq, Function.update_self]
      · rw [Function.update_of_ne heq, elementOf, h.alloc a ?_]
        · rfl
        · rw [← hperm.mem_iff, List.mem_cons, not_or]
          refine ⟨heq, fun hmem => ha ?_⟩
          rw [List.map_append]
          exact List.mem_append.mpr (List.mem_append.mp hmem).symm
    exact Option.map_eq_none_iff.mp hnone

end LinkedList
