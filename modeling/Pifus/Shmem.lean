import Pifus.Constants
import Pifus.Util.Memory

/-!
# The shared heap of an app

The functions of `pifus_shmem.c` that hand out and take back blocks of an
app's region. The region starts with the `pifus_app` structure, and from
behind it on it is cut into blocks, each a header and its data; a header
whose size is zero ends the chain. Headers and data lie in the same bytes,
so the model keeps the bytes: a memory is a map from addresses, a pointer is
an address, and pointer and `size_t` arithmetic is modulo `2 ^ 64` as the
code computes it.

What is read behind the region is read from the memory too. `mmap` maps
whole pages, and the rest of the last page of the region reads as zero.

The walk of `shm_data_next_suitable_block` is a recursion over memory
contents that need not be well formed, so it takes fuel; `none` as the
result says the walk has not ended.
-/

/-- A pointer: an address of the app's address space. -/
abbrev Ptr := ℕ

/-- A 64-bit word read as a signed number. -/
def toInt64 (n : ℕ) : ℤ :=
  if n < 2 ^ 63 then (n : ℤ) else (n : ℤ) - 2 ^ 64

/-- The 64-bit word of a signed number. -/
def ofInt64 (z : ℤ) : ℕ := (z % 2 ^ 64).toNat

namespace PifusMemoryBlock

/-- `block->free`. -/
def free (m : Memory) (block : Ptr) : Bool := m block != 0

/-- `block->size`. -/
def size (m : Memory) (block : Ptr) : ℕ := m.read (block + 8) 8

/-- `block->prev_block_offset`. -/
def prevBlockOffset (m : Memory) (block : Ptr) : ℤ :=
  toInt64 (m.read (block + 16) 8)

/-- `block->free = b`. -/
def setFree (m : Memory) (block : Ptr) (b : Bool) : Memory :=
  m.write block 1 b.toNat

/-- `block->size = n`. -/
def setSize (m : Memory) (block : Ptr) (n : ℕ) : Memory :=
  m.write (block + 8) 8 n

/-- `block->prev_block_offset = z`. -/
def setPrevBlockOffset (m : Memory) (block : Ptr) (z : ℤ) : Memory :=
  m.write (block + 16) 8 (ofInt64 z)

end PifusMemoryBlock

open PifusMemoryBlock

/-- `shm_data_is_ptr_out_of_range`. -/
def shmDataIsPtrOutOfRange (app ptr : Ptr) : Bool :=
  decide (app + shmAppSize < ptr)

/-- `shm_data_get_data_ptr`. -/
def shmDataGetDataPtr (block : Ptr) : Ptr :=
  (block + sizeofPifusMemoryBlock) % 2 ^ 64

/-- `shm_data_get_offset`, with the `- 8` of the source. -/
def shmDataGetOffset (app block : Ptr) : ℤ :=
  toInt64 ((block + 2 ^ 64 - app + sizeofPifusApp + 2 ^ 64 - 8) % 2 ^ 64)

/-- `shm_data_get_block_ptr`. -/
def shmDataGetBlockPtr (app : Ptr) (blockOffset : ℤ) : Ptr :=
  (((app : ℤ) + sizeofPifusApp + blockOffset) % 2 ^ 64).toNat

/-- `shm_data_get_next_block_ptr`: the header behind the block's data, if
it does not start behind the region. -/
def shmDataGetNextBlockPtr (m : Memory) (app block : Ptr) : Option Ptr :=
  let nextBlock := (block + sizeofPifusMemoryBlock + size m block) % 2 ^ 64
  if shmDataIsPtrOutOfRange app nextBlock then none else some nextBlock

/-- `shm_data_delete_block`. -/
def shmDataDeleteBlock (m : Memory) (block : Ptr) : Memory :=
  m.fill block ((sizeofPifusMemoryBlock + size m block) % 2 ^ 64) 0

/-- The back offset of a block appended behind `previousBlock`, `-1` where
there is none. -/
def appendedPrevOffset (app : Ptr) : Option Ptr → ℤ
  | none => -1
  | some previousBlock => shmDataGetOffset app previousBlock

/-- The append branch of `shm_data_next_suitable_block`: a new block at the
end of the chain, if its data ends inside the region. -/
def appendBlock (app : Ptr) (m : Memory) (previousBlock : Option Ptr)
    (currentBlock : Ptr) (desiredSize : ℕ) : Option Ptr × Memory :=
  if shmDataIsPtrOutOfRange app
      ((shmDataGetDataPtr currentBlock + desiredSize) % 2 ^ 64) then
    (none, m)
  else
    let m := setSize m currentBlock desiredSize
    let m := setPrevBlockOffset m currentBlock
      (appendedPrevOffset app previousBlock)
    (some currentBlock, m)

/-- The split branch of `shm_data_next_suitable_block`: the block is cut to
the desired size and the rest becomes a free block behind it. -/
def splitBlock (app : Ptr) (m : Memory) (currentBlock : Ptr)
    (nextBlock : Option Ptr) (desiredSize : ℕ) : Memory :=
  let preSplitSize := size m currentBlock
  let m := setSize m currentBlock desiredSize
  let newNextBlock :=
    (currentBlock + sizeofPifusMemoryBlock + desiredSize) % 2 ^ 64
  let m := setFree m newNextBlock true
  let m := setSize m newNextBlock
    (preSplitSize - desiredSize - sizeofPifusMemoryBlock)
  let m := setPrevBlockOffset m newNextBlock
    (shmDataGetOffset app currentBlock)
  match nextBlock with
  | none => m
  | some nextBlock =>
    if 0 < size m nextBlock then
      setPrevBlockOffset m nextBlock (shmDataGetOffset app newNextBlock)
    else m

/-- One call of `shm_data_next_suitable_block` on `currentBlock`: its result,
or the block it calls itself on. -/
def visitBlock (app : Ptr) (m : Memory) (previousBlock : Option Ptr)
    (currentBlock : Ptr) (desiredSize : ℕ) : (Option Ptr × Memory) ⊕ Ptr :=
  if size m currentBlock = 0 then
    .inl (appendBlock app m previousBlock currentBlock desiredSize)
  else
    let nextBlock := shmDataGetNextBlockPtr m app currentBlock
    if size m currentBlock = desiredSize ∧ free m currentBlock then
      .inl (some currentBlock, m)
    else if desiredSize < size m currentBlock
        ∧ sizeofPifusMemoryBlock < size m currentBlock - desiredSize
        ∧ free m currentBlock then
      .inl (some currentBlock,
        splitBlock app m currentBlock nextBlock desiredSize)
    else
      match nextBlock with
      | some nextBlock => .inr nextBlock
      | none => .inl (none, m)

/-- `shm_data_next_suitable_block`: the first block from `currentBlock` on
that can hold `desiredSize` bytes, made ready for it. -/
def shmDataNextSuitableBlock (app : Ptr) :
    ℕ → Memory → Option Ptr → Ptr → ℕ → Option (Option Ptr × Memory)
  | 0, _, _, _, _ => none
  | fuel + 1, m, previousBlock, currentBlock, desiredSize =>
    match visitBlock app m previousBlock currentBlock desiredSize with
    | .inl result => some result
    | .inr nextBlock =>
      shmDataNextSuitableBlock app fuel m (some currentBlock) nextBlock
        desiredSize

/-- `shm_data_allocate`: the offset and the block handed out, if any, and
the memory after the call. A chain inside the region has fewer than
`SHM_APP_SIZE` blocks, so that is fuel enough for it. -/
def shmDataAllocate (app : Ptr) (m : Memory) (n : ℕ) :
    Option (Option (ℤ × Ptr) × Memory) :=
  match shmDataNextSuitableBlock app shmAppSize m none (app + sizeofPifusApp)
      n with
  | none => none
  | some (none, m) => some (none, m)
  | some (some allocatingBlock, m) =>
    some (some (shmDataGetOffset app allocatingBlock, allocatingBlock),
      setFree m allocatingBlock false)

/-- `next_block->prev_block_offset = z`, if there is a next block. -/
def setNextPrevBlockOffset (m : Memory) (next : Option Ptr) (z : ℤ) : Memory :=
  match next with
  | some nextBlock => setPrevBlockOffset m nextBlock z
  | none => m

/-- The part of `shm_data_free` that merges with the previous block: the
block that takes over, and the memory. `next` is the next block where one
exists. -/
def mergePrevious (app : Ptr) (m : Memory) (block : Ptr) (next : Option Ptr) :
    Ptr × Memory :=
  if 0 ≤ prevBlockOffset m block then
    let previousBlock := shmDataGetBlockPtr app (prevBlockOffset m block)
    if free m previousBlock then
      let m := setNextPrevBlockOffset m next (prevBlockOffset m block)
      (previousBlock, setSize m previousBlock
        ((size m previousBlock + sizeofPifusMemoryBlock + size m block)
          % 2 ^ 64))
    else (block, m)
  else (block, m)

/-- The part of `shm_data_free` that merges with the next block. -/
def mergeNext (m : Memory) (newMergedBlock : Ptr) (next : Option Ptr) :
    Memory :=
  match next with
  | some nextBlock =>
    if free m nextBlock then
      setSize m newMergedBlock
        ((size m newMergedBlock + sizeofPifusMemoryBlock + size m nextBlock)
          % 2 ^ 64)
    else m
  | none => m

/-- The next block of `block`, where one exists: the header behind it is
inside the region and its size is not zero. -/
def existingNextBlock (m : Memory) (app block : Ptr) : Option Ptr :=
  (shmDataGetNextBlockPtr m app block).filter (fun next => size m next ≠ 0)

/-- The end of `shm_data_free`, once the block that takes over is known:
merge with the next block, clear the data, set the flag. -/
def freeMerged (m : Memory) (newMergedBlock : Ptr) (next : Option Ptr) :
    Memory :=
  let m := mergeNext m newMergedBlock next
  setFree (m.fill (shmDataGetDataPtr newMergedBlock) (size m newMergedBlock) 0)
    newMergedBlock true

/-- `shm_data_free`. -/
def shmDataFree (app : Ptr) (m : Memory) (block : Ptr) : Memory :=
  let next := existingNextBlock m app block
  if prevBlockOffset m block < 0 ∧ next = none then
    shmDataDeleteBlock m block
  else
    let merged := mergePrevious app m block next
    freeMerged merged.2 merged.1 next
