import Pifus.RingBuffer
import Pifus.Util.Transition
import Mathlib.Data.Fin.VecNotation

/-!
# The ring buffer, access by access

`pifus_ring_buffer.c` has no lock. One party calls `put` and `is_full`, the
other one `get`, or `peek` and later `erase_first`, and they run at the same
time in different processes. So each of them is a program counter in front of
its next load or store of something shared, and a step is one such access.
The accesses are those of the source in their order: `put` loads `head` a
second time to index the array, and both parties load `end` in the middle of a
call.

An element is a structure, and a structure is copied word by word. Between two
of these words the other party may take any number of steps, so a slot can be
seen half written. Nothing else is assumed of elements but that they consist
of `words` words.

A call that returns touches nothing shared any more, so its return belongs to
its last access.
-/

/-- An element of the ring buffer: its words. -/
abbrev Element (words : ℕ) (β : Type*) := Fin words → β

variable {words : ℕ} {β : Type*}

/-- The functions of the ring buffer. -/
inductive RingCall
  | put | isFull | get | peek | eraseFirst
  deriving DecidableEq

/-- A call of the producer, with its argument. -/
inductive PutCall (words : ℕ) (β : Type*)
  | put (el : Element words β)
  | isFull

/-- Where the producer stands. `head` is the local variable. -/
inductive ProducerPc (words : ℕ) (β : Type*)
  | idle
  /-- In front of the load in `ring_buffer->head + 1U`. -/
  | loadHead (call : PutCall words β)
  /-- In front of the comparison with `ring_buffer->end`. -/
  | loadEnd (call : PutCall words β) (head : ℕ)
  /-- In front of the comparison with `ring_buffer->tail`. -/
  | loadTail (call : PutCall words β) (head : ℕ)
  /-- In front of the load of `ring_buffer->head` that indexes the array. -/
  | loadIndex (el : Element words β) (head : ℕ)
  /-- In the assignment to `buf[cell]`, `word` words of it done. -/
  | storeWord (el : Element words β) (head cell word : ℕ)
  /-- In front of the store to `ring_buffer->head`. -/
  | storeHead (el : Element words β) (head : ℕ)

/-- A call of the consumer. It passes a place to `get`, whose content the
call overwrites, and it calls `erase_first` with a copy of the element in its
hands. -/
inductive TakeCall (words : ℕ) (β : Type*)
  | get (place : Element words β)
  | peek
  | eraseFirst (copy : Element words β)

/-- Where the consumer stands. `tail` is the local variable. -/
inductive ConsumerPc (words : ℕ) (β : Type*)
  | idle
  /-- In front of the load of `ring_buffer->tail`. -/
  | loadTail (call : TakeCall words β)
  /-- In front of the comparison with `ring_buffer->head`. -/
  | loadHead (call : TakeCall words β) (tail : ℕ)
  /-- In a copy out of `buf[cell]`, `word` words of it done: the one in `get`,
  or the one behind `peek`. -/
  | loadWord (inGet : Bool) (cell word : ℕ) (copy : Element words β)
  /-- In front of the comparison with `ring_buffer->end`. -/
  | loadEnd (call : RingCall) (tail : ℕ) (copy : Element words β)
  /-- In front of the store to `ring_buffer->tail`. -/
  | storeTail (call : RingCall) (tail : ℕ) (copy : Element words β)
  /-- `peek` has returned a pointer to `buf[cell]`. -/
  | pointing (cell : ℕ)
  /-- The element `peek` has pointed to is copied. -/
  | holding (copy : Element words β)

/-- The shared memory, the two parties, and the history of their calls. -/
structure AccessState (words : ℕ) (β : Type*) where
  /-- `end`. -/
  endIndex : ℕ
  head : ℕ
  tail : ℕ
  buf : ℕ → Element words β
  producer : ProducerPc words β
  consumer : ConsumerPc words β
  /-- The elements whose `put` returned `true`, oldest first. -/
  produced : List (Element words β)
  /-- The elements taken off, as the consumer has copied them. -/
  consumed : List (Element words β)
  /-- What the calls returned, oldest first. -/
  returns : List (RingCall × Bool)

/-- What can happen next. -/
inductive AccessEvent (words : ℕ) (β : Type*)
  /-- The producer calls a function. -/
  | callPut (call : PutCall words β)
  /-- The producer's next access. -/
  | producer
  /-- The consumer calls `get`. -/
  | get (place : Element words β)
  /-- The consumer calls `peek`. -/
  | peek
  /-- The consumer starts to copy the element that `peek` points to. -/
  | copy (place : Element words β)
  /-- The consumer calls `erase_first` when it has the copy. -/
  | eraseFirst
  /-- The consumer leaves the element where it is. -/
  | leave
  /-- The consumer's next access. -/
  | consumer

namespace AccessState

/-- `create`: an empty ring buffer, and both parties outside. -/
def create (buf : ℕ → Element words β) (bufferLength : ℕ) :
    AccessState words β :=
  ⟨bufferLength, 0, 0, buf, .idle, .idle, [], [], []⟩

/-- The next access of the producer. -/
def produce (s : AccessState words β) : Option (AccessState words β) :=
  match s.producer with
  | .idle => none
  | .loadHead call =>
    some { s with producer := .loadEnd call ((s.head + 1) % 2 ^ 16) }
  | .loadEnd call head => some { s with
      producer := .loadTail call (if head = s.endIndex then 0 else head) }
  | .loadTail .isFull head => some { s with
      producer := .idle
      returns := s.returns ++ [(.isFull, decide (head = s.tail))] }
  | .loadTail (.put el) head =>
    if head ≠ s.tail then some { s with producer := .loadIndex el head }
    else some { s with
      producer := .idle, returns := s.returns ++ [(.put, false)] }
  | .loadIndex el head =>
    some { s with producer := .storeWord el head s.head 0 }
  | .storeWord el head cell word =>
    if h : word < words then some { s with
      buf := Function.update s.buf cell
        (Function.update (s.buf cell) ⟨word, h⟩ (el ⟨word, h⟩))
      producer := .storeWord el head cell (word + 1) }
    else some { s with producer := .storeHead el head }
  | .storeHead el head => some { s with
      head := head
      producer := .idle
      produced := s.produced ++ [el]
      returns := s.returns ++ [(.put, true)] }

/-- What a call of the consumer does on a buffer that is not empty, up to its
next access. -/
def found (tail : ℕ) : TakeCall words β → ConsumerPc words β
  | .get place => .loadWord true tail 0 place
  | .peek => .pointing tail
  | .eraseFirst copy => .loadEnd .eraseFirst ((tail + 1) % 2 ^ 16) copy

/-- The function that a call of the consumer calls. -/
def callee : TakeCall words β → RingCall
  | .get _ => .get
  | .peek => .peek
  | .eraseFirst _ => .eraseFirst

/-- The next access of the consumer. -/
def consume (s : AccessState words β) : Option (AccessState words β) :=
  match s.consumer with
  | .idle | .pointing _ | .holding _ => none
  | .loadTail call => some { s with consumer := .loadHead call s.tail }
  | .loadHead call tail =>
    if s.head ≠ tail then some { s with
      consumer := found tail call
      returns := s.returns ++ (match call with
        | .peek => [(.peek, true)]
        | _ => []) }
    else some { s with
      consumer := .idle, returns := s.returns ++ [(callee call, false)] }
  | .loadWord inGet cell word copy =>
    if h : word < words then some { s with
      consumer := .loadWord inGet cell (word + 1)
        (Function.update copy ⟨word, h⟩ (s.buf cell ⟨word, h⟩)) }
    else if inGet then
      some { s with consumer := .loadEnd .get ((cell + 1) % 2 ^ 16) copy }
    else some { s with consumer := .holding copy }
  | .loadEnd call tail copy => some { s with
      consumer := .storeTail call (if tail = s.endIndex then 0 else tail)
        copy }
  | .storeTail call tail copy => some { s with
      tail := tail
      consumer := .idle
      consumed := s.consumed ++ [copy]
      returns := s.returns ++ [(call, true)] }

end AccessState

/-- **A step of the producer or of the consumer.** -/
def accessStep (s : AccessState words β) :
    AccessEvent words β → Option (AccessState words β)
  | .callPut call =>
    match s.producer with
    | .idle => some { s with producer := .loadHead call }
    | _ => none
  | .producer => s.produce
  | .get place =>
    match s.consumer with
    | .idle => some { s with consumer := .loadTail (.get place) }
    | _ => none
  | .peek =>
    match s.consumer with
    | .idle => some { s with consumer := .loadTail .peek }
    | _ => none
  | .copy place =>
    match s.consumer with
    | .pointing cell => some { s with consumer := .loadWord false cell 0 place }
    | _ => none
  | .eraseFirst =>
    match s.consumer with
    | .holding copy =>
      some { s with consumer := .loadTail (.eraseFirst copy) }
    | _ => none
  | .leave =>
    match s.consumer with
    | .pointing _ | .holding _ => some { s with consumer := .idle }
    | _ => none
  | .consumer => s.consume

/-- The steps as a relation. -/
def AccessStep (s : AccessState words β) (e : AccessEvent words β)
    (t : AccessState words β) : Prop :=
  accessStep s e = some t

/-! ## The atomic ring buffer behind it -/

namespace AccessState

variable {rb rb' : RingBuffer (Element words β)} {s t : AccessState words β}

/-- What the producer knows where it stands. -/
def ProducerInv (rb : RingBuffer (Element words β)) :
    ProducerPc words β → Prop
  | .idle | .loadHead _ => True
  | .loadEnd _ head => head = (rb.head + 1) % 2 ^ 16
  | .loadTail _ head => head = rb.next rb.head
  | .loadIndex _ head => head = rb.next rb.head
      ∧ rb.contents.length + 1 < rb.endIndex
  | .storeWord el head cell word => (head = rb.next rb.head
      ∧ rb.contents.length + 1 < rb.endIndex)
      ∧ cell = rb.head ∧ ∀ i : Fin words, i < word → rb.buf cell i = el i
  | .storeHead el head => (head = rb.next rb.head
      ∧ rb.contents.length + 1 < rb.endIndex) ∧ rb.buf rb.head = el

/-- What the consumer knows of the buffer in a call. -/
def CallInv (rb : RingBuffer (Element words β)) :
    TakeCall words β → Prop
  | .eraseFirst copy => rb.contents.head? = some copy
  | _ => True

/-- What the consumer knows where it stands. -/
def ConsumerInv (rb : RingBuffer (Element words β)) :
    ConsumerPc words β → Prop
  | .idle => True
  | .loadTail call => CallInv rb call
  | .loadHead call tail => tail = rb.tail ∧ CallInv rb call
  | .loadWord _ cell word copy => (cell = rb.tail ∧ rb.contents ≠ [])
      ∧ ∀ i : Fin words, i < word → copy i = rb.buf cell i
  | .loadEnd _ tail copy => tail = (rb.tail + 1) % 2 ^ 16
      ∧ rb.contents.head? = some copy
  | .storeTail _ tail copy => tail = rb.next rb.tail
      ∧ rb.contents.head? = some copy
  | .pointing cell => cell = rb.tail ∧ rb.contents ≠ []
  | .holding copy => rb.contents.head? = some copy

/-- **The shared memory is the atomic ring buffer `rb`**, whose elements are
those produced and not consumed yet. -/
structure Refines (s : AccessState words β)
    (rb : RingBuffer (Element words β)) : Prop where
  endIndex : s.endIndex = rb.endIndex
  head : s.head = rb.head
  tail : s.tail = rb.tail
  buf : s.buf = rb.buf
  log : s.produced = s.consumed ++ rb.contents
  producer : ProducerInv rb s.producer
  consumer : ConsumerInv rb s.consumer

/-- An element appended behind the others changes nothing the consumer
knows of the buffer. -/
theorem head?_of_prefix {l l' : List (Element words β)}
    {el : Element words β} (h : l.head? = some el) (hl : l <+: l') :
    l'.head? = some el := by
  obtain ⟨r, rfl⟩ := hl
  rw [List.head?_append, h]
  rfl

theorem CallInv.mono {call : TakeCall words β} (h : CallInv rb call)
    (hcontents : rb.contents <+: rb'.contents) : CallInv rb' call := by
  cases call with
  | eraseFirst copy => exact head?_of_prefix h hcontents
  | _ => trivial

/-- As long as the elements stay in front, so does the slot of the oldest
one. -/
theorem buf_tail_eq (htail : rb'.tail = rb.tail)
    (hcontents : rb.contents <+: rb'.contents) (hne : rb.contents ≠ []) :
    rb'.contents ≠ [] ∧ rb'.buf rb.tail = rb.buf rb.tail := by
  have hhead := head?_of_prefix (RingBuffer.head?_contents hne) hcontents
  have hne' : rb'.contents ≠ [] := fun hnil => by
    rw [hnil] at hhead
    exact absurd hhead (by simp)
  rw [RingBuffer.head?_contents hne', htail] at hhead
  exact ⟨hne', Option.some.inj hhead⟩

/-- **The producer does not disturb the consumer.** -/
theorem ConsumerInv.mono {pc : ConsumerPc words β} (h : ConsumerInv rb pc)
    (hend : rb'.endIndex = rb.endIndex) (htail : rb'.tail = rb.tail)
    (hcontents : rb.contents <+: rb'.contents) : ConsumerInv rb' pc := by
  have hnext : ∀ i, rb'.next i = rb.next i := fun i => by
    rw [RingBuffer.next, RingBuffer.next, hend]
  cases pc with
  | idle => trivial
  | loadTail call => exact CallInv.mono h hcontents
  | loadHead call tail =>
    exact ⟨h.1.trans htail.symm, CallInv.mono h.2 hcontents⟩
  | loadWord inGet cell word copy =>
    obtain ⟨⟨rfl, hne⟩, hcopy⟩ := h
    obtain ⟨hne', hbuf⟩ := buf_tail_eq htail hcontents hne
    refine ⟨⟨htail.symm, hne'⟩, fun i hi => ?_⟩
    rw [hbuf]
    exact hcopy i hi
  | loadEnd call tail copy =>
    obtain ⟨rfl, hhead⟩ := h
    refine ⟨?_, head?_of_prefix hhead hcontents⟩
    rw [htail]
  | storeTail call tail copy =>
    obtain ⟨rfl, hhead⟩ := h
    refine ⟨?_, head?_of_prefix hhead hcontents⟩
    rw [htail, hnext]
  | pointing cell =>
    obtain ⟨rfl, hne⟩ := h
    exact ⟨htail.symm, (buf_tail_eq htail hcontents hne).1⟩
  | holding copy => exact head?_of_prefix h hcontents

/-- **The consumer does not disturb the producer.** -/
theorem ProducerInv.mono {pc : ProducerPc words β} (h : ProducerInv rb pc)
    (hend : rb'.endIndex = rb.endIndex) (hhead : rb'.head = rb.head)
    (hbuf : rb'.buf = rb.buf)
    (hlen : rb'.contents.length ≤ rb.contents.length) :
    ProducerInv rb' pc := by
  have hnext : rb'.next rb'.head = rb.next rb.head := by
    rw [RingBuffer.next, RingBuffer.next, hend, hhead]
  have hroom : rb.contents.length + 1 < rb.endIndex →
      rb'.contents.length + 1 < rb'.endIndex := by
    intro h
    rw [hend]
    exact Nat.lt_of_le_of_lt (Nat.succ_le_succ hlen) h
  cases pc with
  | idle | loadHead call => trivial
  | loadEnd call head =>
    show head = (rb'.head + 1) % 2 ^ 16
    rw [hhead]
    exact h
  | loadTail call head => exact Eq.trans h hnext.symm
  | loadIndex el head => exact ⟨h.1.trans hnext.symm, hroom h.2⟩
  | storeWord el head cell word =>
    obtain ⟨⟨hh, hr⟩, hcell, hwords⟩ := h
    refine ⟨⟨hh.trans hnext.symm, hroom hr⟩, hcell.trans hhead.symm, ?_⟩
    rw [hbuf]
    exact hwords
  | storeHead el head =>
    obtain ⟨⟨hh, hr⟩, hel⟩ := h
    refine ⟨⟨hh.trans hnext.symm, hroom hr⟩, ?_⟩
    rw [hbuf, hhead]
    exact hel

/-! ## The steps -/

/-- A step of the producer that changes the buffer, in a way that leaves the
elements in front. -/
theorem Refines.produced {t : AccessState words β} (h : Refines s rb)
    (hend : rb'.endIndex = rb.endIndex) (htail : rb'.tail = rb.tail)
    (hcontents : rb.contents <+: rb'.contents)
    (hs : t.endIndex = s.endIndex ∧ t.tail = s.tail
      ∧ t.consumer = s.consumer)
    (hhead : t.head = rb'.head) (hbuf : t.buf = rb'.buf)
    (hlog : t.produced = t.consumed ++ rb'.contents)
    (hpc : ProducerInv rb' t.producer) : Refines t rb' := by
  obtain ⟨hsEnd, hsTail, hsPc⟩ := hs
  refine ⟨?_, hhead, ?_, hbuf, hlog, hpc, ?_⟩
  · rw [hsEnd, h.endIndex, hend]
  · rw [hsTail, h.tail, htail]
  · rw [hsPc]
    exact h.consumer.mono hend htail hcontents

theorem Refines.goProducer {pc : ProducerPc words β}
    {returns : List (RingCall × Bool)} (h : Refines s rb)
    (hpc : ProducerInv rb pc) :
    Refines { s with producer := pc, returns := returns } rb :=
  ⟨h.endIndex, h.head, h.tail, h.buf, h.log, hpc, h.consumer⟩

theorem Refines.goConsumer {pc : ConsumerPc words β}
    {returns : List (RingCall × Bool)} (h : Refines s rb)
    (hpc : ConsumerInv rb pc) :
    Refines { s with consumer := pc, returns := returns } rb :=
  ⟨h.endIndex, h.head, h.tail, h.buf, h.log, h.producer, hpc⟩

/-- A copy that agrees with its source on the first words agrees on one more
after the next word is copied. -/
theorem update_word_eq {f g : Element words β} {word : ℕ} (hword : word < words)
    (h : ∀ i : Fin words, i.val < word → f i = g i) {i : Fin words}
    (hi : i.val < word + 1) :
    Function.update f ⟨word, hword⟩ (g ⟨word, hword⟩) i = g i := by
  rcases Nat.lt_succ_iff_lt_or_eq.mp hi with hlt | rfl
  · rw [Function.update_of_ne (fun heq => by
      rw [heq] at hlt
      exact absurd hlt (Nat.lt_irrefl _))]
    exact h i hlt
  · rw [Function.update_self]

/-- **Every access of the producer** leaves the atomic ring buffer as it is,
writes to the slot behind its elements, or is a `put`. -/
theorem Refines.produce (h : Refines s rb) (hs : s.produce = some t) :
    ∃ rb', Refines t rb' := by
  have hpc := h.producer
  rw [AccessState.produce] at hs
  cases hcase : s.producer with
  | idle =>
    rw [hcase] at hs
    exact absurd hs (by simp)
  | loadHead call =>
    rw [hcase] at hs
    obtain rfl := Option.some.inj hs
    refine ⟨rb, h.goProducer ?_⟩
    show (s.head + 1) % 2 ^ 16 = (rb.head + 1) % 2 ^ 16
    rw [h.head]
  | loadEnd call head =>
    rw [hcase] at hpc hs
    obtain rfl := Option.some.inj hs
    refine ⟨rb, h.goProducer ?_⟩
    obtain rfl : head = (rb.head + 1) % 2 ^ 16 := hpc
    show ite _ _ _ = rb.next rb.head
    rw [h.endIndex, RingBuffer.next]
  | loadTail call head =>
    rw [hcase] at hpc hs
    obtain rfl : head = rb.next rb.head := hpc
    cases call with
    | isFull =>
      obtain rfl := Option.some.inj hs
      exact ⟨rb, h.goProducer trivial⟩
    | put el =>
      dsimp only at hs
      split at hs
      · rename_i hne
        obtain rfl := Option.some.inj hs
        refine ⟨rb, h.goProducer ⟨rfl, ?_⟩⟩
        have hfull : rb.count + 1 ≠ rb.endIndex := fun heq => by
          rw [h.tail] at hne
          exact hne (RingBuffer.next_head_eq_tail_iff.mpr heq)
        have hlt := rb.count_lt
        rw [RingBuffer.length_contents]
        omega
      · obtain rfl := Option.some.inj hs
        exact ⟨rb, h.goProducer trivial⟩
  | loadIndex el head =>
    rw [hcase] at hpc hs
    obtain rfl := Option.some.inj hs
    exact ⟨rb, h.goProducer
      ⟨hpc, h.head, fun i hi => absurd hi (Nat.not_lt_zero _)⟩⟩
  | storeWord el head cell word =>
    rw [hcase] at hpc hs
    obtain ⟨hroom, rfl, hwords⟩ := hpc
    dsimp only at hs
    split at hs
    · rename_i hword
      obtain rfl := Option.some.inj hs
      let slot := Function.update (s.buf rb.head) ⟨word, hword⟩ (el ⟨word, hword⟩)
      have hcontents : (rb.store rb.head slot).contents = rb.contents :=
        RingBuffer.contents_store_head
      have hpre : rb.contents <+: (rb.store rb.head slot).contents :=
        ⟨[], by rw [hcontents, List.append_nil]⟩
      refine ⟨rb.store rb.head slot, h.produced rfl rfl hpre ⟨rfl, rfl, rfl⟩
        h.head ?_ ?_ ⟨⟨hroom.1, ?_⟩, rfl, fun i hi => ?_⟩⟩
      · show Function.update s.buf rb.head slot
          = Function.update rb.buf rb.head slot
        rw [h.buf]
      · rw [hcontents]
        exact h.log
      · rw [hcontents]
        exact hroom.2
      · show Function.update rb.buf rb.head slot rb.head i = el i
        rw [Function.update_self]
        show Function.update (s.buf rb.head) ⟨word, hword⟩ _ i = el i
        rw [h.buf]
        exact update_word_eq hword hwords hi
    · rename_i hword
      obtain rfl := Option.some.inj hs
      refine ⟨rb, h.goProducer ⟨hroom, funext (fun i => ?_)⟩⟩
      exact hwords i (Nat.lt_of_lt_of_le i.isLt (Nat.not_lt.mp hword))
  | storeHead el head =>
    rw [hcase] at hpc hs
    obtain ⟨⟨rfl, hroom⟩, hel⟩ := hpc
    obtain rfl := Option.some.inj hs
    obtain ⟨rb', hrb'⟩ := RingBuffer.exists_put el (Nat.ne_of_lt hroom)
    have hcontents := RingBuffer.contents_put hrb'
    obtain ⟨hhead, htail, hbuf⟩ := RingBuffer.put_eq_some hrb'
    refine ⟨rb', h.produced (RingBuffer.endIndex_put hrb') htail ?_
      ⟨rfl, rfl, rfl⟩ hhead.symm ?_ ?_ trivial⟩
    · rw [hcontents]
      exact List.prefix_append _ _
    · show s.buf = rb'.buf
      rw [hbuf, ← hel, Function.update_eq_self, h.buf]
    · show s.produced ++ [el] = s.consumed ++ rb'.contents
      rw [hcontents, h.log, List.append_assoc]

/-- **Every access of the consumer** leaves the atomic ring buffer as it is,
or is an `erase_first` of the element copied. -/
theorem Refines.consume (h : Refines s rb) (hs : s.consume = some t) :
    ∃ rb', Refines t rb' := by
  have hpc := h.consumer
  rw [AccessState.consume] at hs
  cases hcase : s.consumer with
  | idle | pointing cell | holding copy =>
    rw [hcase] at hs
    exact absurd hs (by simp)
  | loadTail call =>
    rw [hcase] at hpc hs
    obtain rfl := Option.some.inj hs
    exact ⟨rb, h.goConsumer ⟨h.tail, hpc⟩⟩
  | loadHead call tail =>
    rw [hcase] at hpc hs
    obtain ⟨rfl, hcall⟩ := hpc
    dsimp only at hs
    split at hs
    · rename_i hne
      obtain rfl := Option.some.inj hs
      have hcontents : rb.contents ≠ [] := fun hnil => by
        rw [← List.length_eq_zero_iff, RingBuffer.length_contents,
          ← RingBuffer.head_eq_tail_iff, ← h.head] at hnil
        exact hne hnil
      refine ⟨rb, h.goConsumer ?_⟩
      cases call with
      | get place =>
        exact ⟨⟨rfl, hcontents⟩, fun i hi => absurd hi (Nat.not_lt_zero _)⟩
      | peek => exact ⟨rfl, hcontents⟩
      | eraseFirst copy => exact ⟨rfl, hcall⟩
    · obtain rfl := Option.some.inj hs
      exact ⟨rb, h.goConsumer trivial⟩
  | loadWord inGet cell word copy =>
    rw [hcase] at hpc hs
    obtain ⟨⟨rfl, hne⟩, hwords⟩ := hpc
    dsimp only at hs
    split at hs
    · rename_i hword
      obtain rfl := Option.some.inj hs
      refine ⟨rb, h.goConsumer ⟨⟨rfl, hne⟩, fun i hi => ?_⟩⟩
      rw [h.buf]
      exact update_word_eq hword hwords hi
    · rename_i hword
      have hcopy : copy = rb.buf rb.tail := funext (fun i =>
        hwords i (Nat.lt_of_lt_of_le i.isLt (Nat.not_lt.mp hword)))
      have hhead : rb.contents.head? = some copy := by
        rw [hcopy]
        exact RingBuffer.head?_contents hne
      split at hs
      · obtain rfl := Option.some.inj hs
        exact ⟨rb, h.goConsumer ⟨rfl, hhead⟩⟩
      · obtain rfl := Option.some.inj hs
        exact ⟨rb, h.goConsumer hhead⟩
  | loadEnd call tail copy =>
    rw [hcase] at hpc hs
    obtain ⟨rfl, hhead⟩ := hpc
    obtain rfl := Option.some.inj hs
    refine ⟨rb, h.goConsumer ⟨?_, hhead⟩⟩
    rw [h.endIndex, RingBuffer.next]
  | storeTail call tail copy =>
    rw [hcase] at hpc hs
    obtain ⟨rfl, hhead⟩ := hpc
    obtain rfl := Option.some.inj hs
    have hne : rb.contents ≠ [] := fun hnil => by
      rw [hnil] at hhead
      exact absurd hhead (by simp)
    obtain ⟨rb', hrb', hcontents⟩ := RingBuffer.exists_eraseFirst hne
    have hend := RingBuffer.endIndex_eraseFirst hrb'
    obtain ⟨htail, hhead', hbuf⟩ := RingBuffer.eraseFirst_eq_some hrb'
    refine ⟨rb', h.endIndex.trans hend.symm, h.head.trans hhead'.symm,
      htail.symm, h.buf.trans hbuf.symm, ?_,
      h.producer.mono hend hhead' hbuf ?_, trivial⟩
    · rw [hcontents] at hhead
      show s.produced = (s.consumed ++ [copy]) ++ rb'.contents
      rw [h.log, hcontents, ← Option.some.inj hhead, List.append_assoc]
      rfl
    · rw [hcontents]
      exact Nat.le_succ _

/-- **Every step keeps the refinement.** -/
theorem Refines.step {e : AccessEvent words β} (h : Refines s rb)
    (hs : accessStep s e = some t) : ∃ rb', Refines t rb' := by
  cases e with
  | producer => exact h.produce hs
  | consumer => exact h.consume hs
  | callPut call =>
    rw [accessStep] at hs
    split at hs
    · obtain rfl := Option.some.inj hs
      exact ⟨rb, h.goProducer trivial⟩
    · exact absurd hs (by simp)
  | get place | peek =>
    rw [accessStep] at hs
    split at hs
    · obtain rfl := Option.some.inj hs
      exact ⟨rb, h.goConsumer trivial⟩
    · exact absurd hs (by simp)
  | copy place =>
    rw [accessStep] at hs
    split at hs
    · rename_i cell hcase
      have hpc := h.consumer
      rw [hcase] at hpc
      obtain rfl := Option.some.inj hs
      exact ⟨rb, h.goConsumer
        ⟨hpc, fun i hi => absurd hi (Nat.not_lt_zero _)⟩⟩
    · exact absurd hs (by simp)
  | eraseFirst =>
    rw [accessStep] at hs
    split at hs
    · rename_i copy hcase
      have hpc := h.consumer
      rw [hcase] at hpc
      obtain rfl := Option.some.inj hs
      exact ⟨rb, h.goConsumer hpc⟩
    · exact absurd hs (by simp)
  | leave =>
    rw [accessStep] at hs
    split at hs
    · obtain rfl := Option.some.inj hs
      exact ⟨rb, h.goConsumer trivial⟩
    · obtain rfl := Option.some.inj hs
      exact ⟨rb, h.goConsumer trivial⟩
    · exact absurd hs (by simp)

/-! ## Calls that fail -/

theorem endIndex_step {e : AccessEvent words β} (hs : accessStep s e = some t) :
    t.endIndex = s.endIndex := by
  cases e <;> grind [accessStep, produce, consume]

/-- The call returned in this step. -/
def Returned (s t : AccessState words β) (call : RingCall) (ok : Bool) : Prop :=
  t.returns = s.returns ++ [(call, ok)]

variable {call : RingCall} {ok : Bool}

theorem not_returned (h : t.returns = s.returns) : ¬ Returned s t call ok := by
  intro hr
  rw [Returned, h] at hr
  simp at hr

theorem Returned.eq {call' : RingCall} {ok' : Bool}
    (hr : Returned s t call ok)
    (h : t.returns = s.returns ++ [(call', ok')]) :
    call = call' ∧ ok = ok' := by
  rw [Returned, h] at hr
  simpa [eq_comm] using hr

/-- `put` returns `false` in front of a `tail` that is its new `head`. -/
theorem put_returned_false (hs : s.produce = some t)
    (hr : Returned s t call false) :
    call = .isFull
      ∨ call = .put ∧ ∃ el, s.producer = .loadTail (.put el) s.tail := by
  rw [produce] at hs
  cases hcase : s.producer with
  | loadTail c head =>
    rw [hcase] at hs
    cases c with
    | isFull =>
      obtain rfl := Option.some.inj hs
      exact Or.inl (hr.eq rfl).1
    | put el =>
      dsimp only at hs
      split at hs
      · obtain rfl := Option.some.inj hs
        exact absurd hr (not_returned rfl)
      · rename_i heq
        obtain rfl := Option.some.inj hs
        rw [Decidable.not_not.mp heq]
        exact Or.inr ⟨(hr.eq rfl).1, el, rfl⟩
  | storeHead el head =>
    rw [hcase] at hs
    obtain rfl := Option.some.inj hs
    exact absurd (hr.eq rfl).2 (by simp)
  | storeWord el head cell word =>
    rw [hcase] at hs
    dsimp only at hs
    split at hs <;> obtain rfl := Option.some.inj hs <;>
      exact absurd hr (not_returned rfl)
  | idle =>
    rw [hcase] at hs
    exact absurd hs (by simp)
  | _ =>
    rw [hcase] at hs
    obtain rfl := Option.some.inj hs
    exact absurd hr (not_returned rfl)

/-- The calls of the consumer return `false` in front of a `head` that is the
`tail` they have loaded. -/
theorem take_returned_false (hs : s.consume = some t)
    (hr : Returned s t call false) :
    ∃ take, s.consumer = .loadHead take s.head ∧ callee take = call := by
  rw [consume] at hs
  cases hcase : s.consumer with
  | loadHead take tail =>
    rw [hcase] at hs
    dsimp only at hs
    split at hs
    · obtain rfl := Option.some.inj hs
      cases take with
      | peek => exact absurd (hr.eq rfl).2 (by simp)
      | _ => exact absurd hr (not_returned (List.append_nil _))
    · rename_i heq
      obtain rfl := Option.some.inj hs
      rw [Decidable.not_not.mp heq]
      exact ⟨take, rfl, (hr.eq rfl).1.symm⟩
  | storeTail c tail copy =>
    rw [hcase] at hs
    obtain rfl := Option.some.inj hs
    exact absurd (hr.eq rfl).2 (by simp)
  | loadWord inGet cell word copy =>
    rw [hcase] at hs
    dsimp only at hs
    split at hs
    · obtain rfl := Option.some.inj hs
      exact absurd hr (not_returned rfl)
    · split at hs <;> obtain rfl := Option.some.inj hs <;>
        exact absurd hr (not_returned rfl)
  | loadTail take | loadEnd c tail copy =>
    rw [hcase] at hs
    obtain rfl := Option.some.inj hs
    exact absurd hr (not_returned rfl)
  | _ =>
    rw [hcase] at hs
    exact absurd hs (by simp)

/-- A call that returned `false` is one of the producer's or one of the
consumer's. -/
theorem returned_false {e : AccessEvent words β} (hs : accessStep s e = some t)
    (hr : Returned s t call false) :
    (call = .isFull
      ∨ call = .put ∧ ∃ el, s.producer = .loadTail (.put el) s.tail)
    ∨ ∃ take, s.consumer = .loadHead take s.head ∧ callee take = call := by
  cases e with
  | producer => exact Or.inl (put_returned_false hs hr)
  | consumer => exact Or.inr (take_returned_false hs hr)
  | leave =>
    rw [accessStep] at hs
    split at hs
    · obtain rfl := Option.some.inj hs
      exact absurd hr (not_returned rfl)
    · obtain rfl := Option.some.inj hs
      exact absurd hr (not_returned rfl)
    · exact absurd hs (by simp)
  | _ =>
    rw [accessStep] at hs
    split at hs
    · obtain rfl := Option.some.inj hs
      exact absurd hr (not_returned rfl)
    · exact absurd hs (by simp)

theorem refines_create {buf : ℕ → Element words β} {n : ℕ} (hpos : 0 < n)
    (hlt : n < 2 ^ 16) :
    Refines (create buf n) (RingBuffer.create buf n hpos hlt) :=
  ⟨rfl, rfl, rfl, rfl, rfl, trivial, trivial⟩

/-- **In every reachable state the shared memory is an atomic ring buffer.** -/
theorem run_refines {buf : ℕ → Element words β} {n : ℕ}
    {es : List (AccessEvent words β)} (hpos : 0 < n) (hlt : n < 2 ^ 16)
    (h : Run AccessStep (create buf n) es s) :
    s.endIndex = n ∧ ∃ rb, Refines s rb := by
  refine h.invariant (fun s => s.endIndex = n ∧ ∃ rb, Refines s rb)
    ⟨rfl, _, refines_create hpos hlt⟩ ?_
  rintro s e t ⟨hend, rb, hrb⟩ hs
  exact ⟨(endIndex_step hs).trans hend, hrb.step hs⟩

/-- `put` fails on a full buffer only. -/
theorem Refines.length_of_put_false {el : Element words β}
    (h : Refines s rb) (hpc : s.producer = .loadTail (.put el) s.tail) :
    s.produced.length = s.consumed.length + (s.endIndex - 1) := by
  have hprod := h.producer
  rw [hpc] at hprod
  have hfull : rb.next rb.head = rb.tail := hprod.symm.trans h.tail
  rw [RingBuffer.next_head_eq_tail_iff, ← RingBuffer.length_contents] at hfull
  rw [h.log, List.length_append, h.endIndex, ← hfull, Nat.add_sub_cancel]

/-- The consumer's calls fail on an empty buffer only. -/
theorem Refines.produced_of_take_false {take : TakeCall words β}
    (h : Refines s rb) (hpc : s.consumer = .loadHead take s.head) :
    s.produced = s.consumed := by
  have hcons := h.consumer
  rw [hpc] at hcons
  have hempty : rb.head = rb.tail := h.head.symm.trans hcons.1
  rw [RingBuffer.head_eq_tail_iff, ← RingBuffer.length_contents,
    List.length_eq_zero_iff] at hempty
  rw [h.log, hempty, List.append_nil]

/-- The slot of an element that is being copied holds all of it. -/
theorem Refines.slot_of_loadWord {inGet : Bool} {cell word : ℕ}
    {copy : Element words β} (h : Refines s rb)
    (hpc : s.consumer = .loadWord inGet cell word copy) :
    s.produced[s.consumed.length]? = some (s.buf cell) := by
  have hcons := h.consumer
  rw [hpc] at hcons
  obtain ⟨⟨rfl, hne⟩, -⟩ := hcons
  rw [h.log, List.getElem?_append_right (Nat.le_refl _), Nat.sub_self,
    ← List.head?_eq_getElem?, RingBuffer.head?_contents hne, h.buf]

/-- **The ring buffer is a queue between one producer and one consumer**,
however their accesses interleave. What the consumer has taken off is a prefix
of what was put. While it copies out of a slot, the slot holds the next
element, and holds it completely. And a call fails only at an access that saw
the buffer full, or empty. -/
theorem ring_buffer_is_spsc_queue {buf : ℕ → Element words β} {n : ℕ}
    {es : List (AccessEvent words β)} (hn : 2 ≤ n ∧ n ≤ 65535)
    (h : Run AccessStep (create buf n) es s) :
    s.consumed <+: s.produced
    ∧ (∀ inGet cell word copy,
        s.consumer = .loadWord inGet cell word copy →
        s.produced[s.consumed.length]? = some (s.buf cell))
    ∧ ∀ e t, AccessStep s e t →
      (Returned s t .put false →
        (∃ el, s.producer = .loadTail (.put el) s.tail)
        ∧ s.produced.length = s.consumed.length + (n - 1))
      ∧ ∀ call, call = .get ∨ call = .peek → Returned s t call false →
        (∃ take, s.consumer = .loadHead take s.head ∧ callee take = call)
        ∧ s.produced = s.consumed := by
  obtain ⟨hend, rb, hrb⟩ := run_refines (by omega) (by omega) h
  refine ⟨?_, fun _ _ _ _ hpc => hrb.slot_of_loadWord hpc, ?_⟩
  · rw [hrb.log]
    exact List.prefix_append _ _
  · refine fun e t hs => ⟨fun hr => ?_, fun call hcall hr => ?_⟩
    · rcases returned_false hs hr with (hcall | ⟨-, el, hpc⟩) | ⟨take, -, hcall⟩
      · exact absurd hcall (by simp)
      · rw [← hend]
        exact ⟨⟨el, hpc⟩, hrb.length_of_put_false hpc⟩
      · cases take <;> exact absurd hcall (by simp [callee])
    · rcases returned_false hs hr with (hcall' | ⟨hcall', -⟩) | ⟨take, hpc, htake⟩
      · rw [hcall'] at hcall
        exact absurd hcall (by simp)
      · rw [hcall'] at hcall
        exact absurd hcall (by simp)
      · exact ⟨⟨take, hpc, htake⟩, hrb.produced_of_take_false hpc⟩

/-- Two elements of two words through two slots: the second `put` fails, and
succeeds when the first element was peeked, copied and erased. -/
theorem ring_buffer_is_spsc_queue_two :
    ∃ s : AccessState 2 ℕ, s.returns = [(.put, true), (.put, false),
        (.peek, true), (.eraseFirst, true), (.put, true)]
      ∧ s.consumed <+: s.produced := by
  let start : AccessState 2 ℕ := create (fun _ _ => 0) 2
  let put (el : Element 2 ℕ) : List (AccessEvent 2 ℕ) :=
    .callPut (.put el) :: List.replicate 8 .producer
  let es := put ![1, 2] ++ (put ![3, 4]).take 4
    ++ [.peek, .consumer, .consumer, .copy ![0, 0], .consumer, .consumer,
      .consumer, .eraseFirst]
    ++ List.replicate 4 .consumer ++ put ![3, 4]
  have hs : (es.foldlM accessStep start).map (fun s => s.returns)
      = some [(.put, true), (.put, false), (.peek, true), (.eraseFirst, true),
        (.put, true)] := by decide +kernel
  obtain ⟨s, hrun, hreturns⟩ := Option.map_eq_some_iff.mp hs
  exact ⟨s, hreturns, (ring_buffer_is_spsc_queue (by decide)
    (Run.of_foldlM hrun)).1⟩

/-- **`erase_first` behind a `peek` never fails.** -/
theorem erase_first_never_fails {buf : ℕ → Element words β} {n : ℕ}
    {es : List (AccessEvent words β)} (hn : 2 ≤ n ∧ n ≤ 65535)
    (h : Run AccessStep (create buf n) es s) {e : AccessEvent words β}
    (hs : AccessStep s e t) : ¬ Returned s t .eraseFirst false := by
  intro hr
  obtain ⟨-, rb, hrb⟩ := run_refines (by omega) (by omega) h
  rcases returned_false hs hr with (hcall | ⟨hcall, -⟩) | ⟨take, hpc, htake⟩
  · exact absurd hcall (by simp)
  · exact absurd hcall (by simp)
  · have hcons := hrb.consumer
    rw [hpc] at hcons
    cases take with
    | eraseFirst copy =>
      have hlog := hrb.log
      rw [hrb.produced_of_take_false hpc, List.self_eq_append_right] at hlog
      have hhead : rb.contents.head? = some copy := hcons.2
      rw [hlog] at hhead
      exact absurd hhead (by simp)
    | _ => exact absurd htake (by simp [callee])

end AccessState
