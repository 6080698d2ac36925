import Xidata.Library.ByteMemory
import Mathlib.Data.Nat.Bitwise

/-!
The heap of a contract: `malloc`, `calloc`, `realloc` and `free` over the linear memory of
the virtual machine.  The allocator hands out the first heap, an array of its own, from the
front; when it is used up it asks for further memory page by page, and once there is none
it looks for blocks that were freed.

The size of a block and whether it is in use are kept in the four bytes in front of it, so
that a block given back and a block handed out differ in one bit of the same memory.
Addresses and sizes are numbers below `2 ^ 32`; where a sum or a difference of the code may
leave this range, it is taken modulo `2 ^ 32`.  The loops have as many turns as they can
make when no such sum wraps.
-/

namespace Xidata.Allocator

open ByteMemory

/-! ### Constants and words -/

/-- `_size_marker` -/
def sizeMarker : ℕ := 4

/-- `_mem_block` -/
def memBlock : ℕ := 8

/-- `_rem_mem_block_mask` -/
def remMemBlockMask : ℕ := memBlock - 1

/-- `_initial_heap_size` -/
def initialHeapSize : ℕ := 8192

/-- `_heaps_size` -/
def heapsSize : ℕ := 16

/-- `_alloc_memory_mask` -/
def allocMemoryMask : ℕ := 2 ^ 31

/-- `~_alloc_memory_mask` -/
def sizeMask : ℕ := 2 ^ 31 - 1

/-- The size of a page of memory. -/
def wasmPageSize : ℕ := 64 * 1024

/-- A sum or a product of 32 bits. -/
def u32 (n : ℕ) : ℕ := n % 2 ^ 32

/-- A difference of 32 bits. -/
def sub32 (n k : ℕ) : ℕ := (n + (2 ^ 32 - k % 2 ^ 32)) % 2 ^ 32

def word (mem : Bytes) (a : ℕ) : ℕ := load mem a sizeMarker

def setWord (mem : Bytes) (a val : ℕ) : Bytes := store mem a sizeMarker val

/-! ### Blocks -/

/-- `buffer_ptr` -/
structure BufferPtr where
  ptr : ℕ
  size : ℕ
  heapEnd : ℕ

namespace BufferPtr

/-- The block at `ptr`, with the size that its header tells. -/
def read (mem : Bytes) (ptr heapEnd : ℕ) : BufferPtr :=
  ⟨ptr, word mem (ptr - sizeMarker) &&& sizeMask, heapEnd⟩

/-- `size(val)`, which keeps the state of the block. -/
def setSize (mem : Bytes) (b : BufferPtr) (val : ℕ) : Bytes × BufferPtr :=
  let memoryState := word mem (b.ptr - sizeMarker) &&& allocMemoryMask
  (setWord mem (b.ptr - sizeMarker) (val ||| memoryState), { b with size := val })

/-- The block at `ptr`, whose header is written. -/
def make (mem : Bytes) (ptr buffSize heapEnd : ℕ) : Bytes × BufferPtr :=
  setSize mem ⟨ptr, 0, heapEnd⟩ buffSize

/-- `end` -/
def fin (b : BufferPtr) : ℕ := u32 (b.ptr + b.size)

def nextPtr (b : BufferPtr) : Option ℕ :=
  let next := u32 (b.fin + sizeMarker)
  if b.heapEnd ≤ next then none else some next

def markAlloc (mem : Bytes) (b : BufferPtr) : Bytes :=
  setWord mem (b.ptr - sizeMarker) (word mem (b.ptr - sizeMarker) ||| allocMemoryMask)

def markFree (mem : Bytes) (b : BufferPtr) : Bytes :=
  setWord mem (b.ptr - sizeMarker) (word mem (b.ptr - sizeMarker) &&& sizeMask)

def isAlloc (mem : Bytes) (b : BufferPtr) : Bool :=
  word mem (b.ptr - sizeMarker) &&& allocMemoryMask != 0

/-- The loop of `merge_contiguous`: the free blocks that follow are counted in. -/
def possibleSize (mem : Bytes) (ptr heapEnd neededSize : ℕ) : ℕ → ℕ → ℕ
  | 0, possible => possible
  | turns + 1, possible =>
    if possible < neededSize ∧ u32 (ptr + possible) < heapEnd then
      let nextMemFlagSize := word mem (u32 (ptr + possible))
      if nextMemFlagSize &&& allocMemoryMask ≠ 0 then possible
      else possibleSize mem ptr heapEnd neededSize turns
        (u32 (possible + ((nextMemFlagSize &&& sizeMask) + sizeMarker)))
    else possible

/-- What `merge_contiguous` leaves behind the block that it has cut to `neededSize`. -/
def splitRemainder (mem : Bytes) (b : BufferPtr) (neededSize possible : ℕ) : Bytes :=
  if neededSize < possible then
    let freedSize := sub32 (possible - neededSize) sizeMarker
    let (mem, freedRemainder) :=
      make mem (u32 (b.ptr + neededSize + sizeMarker)) freedSize b.heapEnd
    freedRemainder.markFree mem
  else mem

def mergeContiguous (mem : Bytes) (b : BufferPtr) (neededSize : ℕ) (allOrNothing : Bool) :
    Bool × Bytes × BufferPtr :=
  if allOrNothing ∧ sub32 b.heapEnd b.ptr < neededSize then (false, mem, b)
  else
    let possible := possibleSize mem b.ptr b.heapEnd neededSize b.heapEnd b.size
    if allOrNothing ∧ possible < neededSize then (false, mem, b)
    else
      let newSize := if possible < neededSize then possible else neededSize
      let (mem, b) := b.setSize mem newSize
      (newSize == neededSize, b.splitRemainder mem neededSize possible, b)

end BufferPtr

/-! ### Heaps -/

/-- `memory`: a heap of `heapSize` bytes at `heap`, which is in use up to `offset`. -/
structure Memory where
  heapSize : ℕ
  heap : ℕ
  offset : ℕ
deriving DecidableEq

namespace Memory

/-- What the constructor makes. -/
def uninit : Memory := ⟨0, 0, 0⟩

def init (h : Memory) (memHeap size : ℕ) : Memory := { h with heapSize := size, heap := memHeap }

def isInit (h : Memory) : Bool := h.heap != 0

/-- `_heap + _heap_size` -/
def fin (h : Memory) : ℕ := u32 (h.heap + h.heapSize)

def isInHeap (h : Memory) (ptr : ℕ) : Bool :=
  decide (u32 (h.heap + sizeMarker) ≤ ptr ∧ ptr < h.fin)

def malloc (h : Memory) (mem : Bytes) (size : ℕ) : Option (ℕ × Bytes × Memory) :=
  let usedUpSize := u32 (h.offset + size + sizeMarker)
  if h.heapSize < usedUpSize then none
  else
    let (mem, newBuff) := BufferPtr.make mem (u32 (h.heap + (h.offset + sizeMarker))) size h.fin
    some (newBuff.ptr, newBuff.markAlloc mem, { h with offset := usedUpSize })

/-- The loop of `malloc_from_freed`. -/
def searchFreed (heapEnd size : ℕ) : ℕ → Bytes → Option ℕ → Option ℕ × Bytes
  | 0, mem, _ => (none, mem)
  | _ + 1, mem, none => (none, mem)
  | turns + 1, mem, some current =>
    let currentBuffer := BufferPtr.read mem current heapEnd
    if currentBuffer.isAlloc mem then searchFreed heapEnd size turns mem currentBuffer.nextPtr
    else
      let (merged, mem, currentBuffer) := currentBuffer.mergeContiguous mem size false
      if merged then (some current, currentBuffer.markAlloc mem)
      else searchFreed heapEnd size turns mem currentBuffer.nextPtr

def mallocFromFreed (h : Memory) (mem : Bytes) (size : ℕ) : Except String (Option ℕ × Bytes) :=
  if h.offset = h.heapSize then
    .ok (searchFreed h.fin size (h.heapSize + 1) mem (some (u32 (h.heap + sizeMarker))))
  else .error
    "malloc_from_freed was designed to only be called after _heap was completely allocated"

/-- The answer of `realloc_in_place`, and the size the block had. -/
def reallocInPlace (h : Memory) (mem : Bytes) (ptr size : ℕ) :
    Option ℕ × ℕ × Bytes × Memory :=
  let origBuffer := BufferPtr.read mem ptr h.fin
  let origPtrSize := origBuffer.size
  let origBufferEnd := origBuffer.fin
  if h.fin < origBufferEnd then (none, 0, mem, h)
  else if sub32 h.fin size < ptr then (none, origPtrSize, mem, h)
  else if size < origPtrSize then
    let (mem, excessToFree) :=
      BufferPtr.make mem (u32 (ptr + size + sizeMarker)) (origPtrSize - size) h.fin
    (some ptr, origPtrSize, excessToFree.markFree mem, h)
  else if origBufferEnd = u32 (h.heap + h.offset) then
    let (mem, _) := origBuffer.setSize mem size
    (some ptr, origPtrSize, mem, { h with offset := u32 (h.offset + (size - origPtrSize)) })
  else if size = origPtrSize then (some ptr, origPtrSize, mem, h)
  else
    let (merged, mem, origBuffer) := origBuffer.mergeContiguous mem size true
    if merged then (some ptr, origPtrSize, origBuffer.markAlloc mem, h)
    else (none, origPtrSize, mem, h)

def free (h : Memory) (mem : Bytes) (ptr : ℕ) : Bytes := (BufferPtr.read mem ptr h.fin).markFree mem

def cleanupRemaining (h : Memory) (mem : Bytes) : Bytes × Memory :=
  if h.offset = h.heapSize then (mem, h)
  else
    let size := sub32 (sub32 h.heapSize h.offset) sizeMarker
    let (mem, newBuff) := BufferPtr.make mem (u32 (h.heap + (h.offset + sizeMarker))) size h.fin
    (newBuff.markFree mem, { h with offset := h.heapSize })

def expandMemory (h : Memory) (expMem size : ℕ) : Option Memory :=
  if h.fin ≠ expMem then none else some { h with heapSize := u32 (h.heapSize + size) }

end Memory

/-! ### The manager -/

/-- `memory_manager` in the memory of the machine: `currentMemory` counts its pages, and
`sbrkBytes` is the break that `sbrk` keeps once it was called. -/
structure MemoryManager where
  bytes : Bytes
  currentMemory : ℕ
  sbrkBytes : Option ℕ
  initialHeap : ℕ
  availableHeaps : ℕ → Memory
  heapsActualSize : ℕ
  activeHeap : ℕ
  activeFreeHeap : ℕ

namespace MemoryManager

/-- `grows n` tells whether the machine lets the memory grow to `n` pages. -/
def sbrk (grows : ℕ → Bool) (m : MemoryManager) (numBytes : ℕ) : Option ℕ × MemoryManager :=
  let sbrkBytes := m.sbrkBytes.getD (u32 (m.currentMemory * wasmPageSize))
  let m := { m with sbrkBytes := some sbrkBytes }
  if 2 ^ 31 - 1 < numBytes then (none, m)
  else
    let numBytes := (numBytes + 7) / 8 * 8
    let numDesiredPages := u32 (sbrkBytes + numBytes + (wasmPageSize - 1)) / wasmPageSize
    if m.currentMemory < numDesiredPages then
      if grows numDesiredPages then
        (some sbrkBytes, { m with
          currentMemory := numDesiredPages, sbrkBytes := some (u32 (sbrkBytes + numBytes)) })
      else (none, m)
    else (some sbrkBytes, { m with sbrkBytes := some (u32 (sbrkBytes + numBytes)) })

/-- How much `next_active_heap` asks for, with the memory ending at `currentMemorySize`. -/
def heapAdj (currentMemorySize : ℕ) : ℕ :=
  if currentMemorySize % wasmPageSize ≤ wasmPageSize - 1024 then
    (currentMemorySize + wasmPageSize) - currentMemorySize % wasmPageSize - currentMemorySize
  else
    (currentMemorySize + wasmPageSize * 2) - currentMemorySize % (wasmPageSize * 2) -
      currentMemorySize

/-- `current_memory->cleanup_remaining()`, after which the next heap is the active one. -/
def leaveHeap (m : MemoryManager) : MemoryManager :=
  let (bytes, h) := (m.availableHeaps m.activeHeap).cleanupRemaining m.bytes
  { m with
    bytes, availableHeaps := Function.update m.availableHeaps m.activeHeap h
    activeHeap := m.activeHeap + 1 }

/-- The heap to go on with, `none` where the code has a null pointer. -/
def nextActiveHeap (grows : ℕ → Bool) (m : MemoryManager) : Option ℕ × MemoryManager :=
  match m.sbrk grows 0 with
  | (none, m) => (none, m)
  | (some currentMemorySize, m) =>
    if 2 ^ 31 ≤ currentMemorySize then (none, m)
    else
      match m.sbrk grows (heapAdj currentMemorySize) with
      | (none, m) =>
        let m := m.leaveHeap
        (none, { m with heapsActualSize := m.activeHeap })
      | (some newMemoryStart, m) =>
        match (m.availableHeaps m.activeHeap).expandMemory newMemoryStart
            (heapAdj currentMemorySize) with
        | some h =>
          (some m.activeHeap,
            { m with availableHeaps := Function.update m.availableHeaps m.activeHeap h })
        | none =>
          let m := m.leaveHeap
          let next := (m.availableHeaps m.activeHeap).init newMemoryStart
            (heapAdj currentMemorySize)
          (some m.activeHeap,
            { m with availableHeaps := Function.update m.availableHeaps m.activeHeap next })

def adjustToMemBlock (size : ℕ) : ℕ :=
  let remainder := u32 (size + sizeMarker) &&& remMemBlockMask
  if 0 < remainder then u32 (size + (memBlock - remainder)) else size

/-- The first loop of `malloc`: the active heap, and those that come after it. -/
def mallocActive (grows : ℕ → Bool) (size : ℕ) : ℕ → MemoryManager → ℕ →
    Option ℕ × MemoryManager
  | 0, m, _ => (none, m)
  | turns + 1, m, current =>
    match (m.availableHeaps current).malloc m.bytes size with
    | some (buffer, bytes, h) =>
      (some buffer, { m with bytes, availableHeaps := Function.update m.availableHeaps current h })
    | none =>
      match m.nextActiveHeap grows with
      | (some next, m) => mallocActive grows size turns m next
      | (none, m) => (none, m)

/-- The second loop of `malloc`: the blocks that were freed. -/
def mallocFreed (size endFreeHeap : ℕ) : ℕ → MemoryManager →
    Except String (Option ℕ × MemoryManager)
  | 0, m => .ok (none, m)
  | turns + 1, m =>
    match (m.availableHeaps m.activeFreeHeap).mallocFromFreed m.bytes size with
    | .error e => .error e
    | .ok (some buffer, bytes) => .ok (some buffer, { m with bytes })
    | .ok (none, bytes) =>
      let next := if m.activeFreeHeap + 1 = m.heapsActualSize then 0 else m.activeFreeHeap + 1
      if next = endFreeHeap then .ok (none, { m with bytes, activeFreeHeap := next })
      else mallocFreed size endFreeHeap turns { m with bytes, activeFreeHeap := next }

/-- The first heap is set up by the first call. -/
def initActive (m : MemoryManager) : MemoryManager :=
  if m.activeHeap = 0 ∧ ¬ (m.availableHeaps 0).isInit then
    { m with
      availableHeaps := Function.update m.availableHeaps 0
        ((m.availableHeaps 0).init m.initialHeap initialHeapSize) }
  else m

/-- A heap grows by a page at a time, and not beyond the half of what can be addressed. -/
def pageTurns : ℕ := 2 ^ 31 / wasmPageSize + 1

/-- The part of `malloc` that looks for new memory. -/
def mallocNew (grows : ℕ → Bool) (m : MemoryManager) (size : ℕ) : Option ℕ × MemoryManager :=
  let m := if m.heapsActualSize = 0 then { m with heapsActualSize := heapsSize } else m
  if m.activeHeap < m.heapsActualSize then
    mallocActive grows size pageTurns m.initActive m.activeHeap
  else (none, m)

def malloc (grows : ℕ → Bool) (m : MemoryManager) (size : ℕ) :
    Except String (Option ℕ × MemoryManager) :=
  if size = 0 then .ok (none, m)
  else
    match m.mallocNew grows (adjustToMemBlock size) with
    | (some buffer, m) => .ok (some buffer, m)
    | (none, m) => mallocFreed (adjustToMemBlock size) m.activeFreeHeap m.heapsActualSize m

/-- The heap that the pointer lies in, among those set up. -/
def heapOf (m : MemoryManager) (ptr : ℕ) : Option ℕ :=
  ((List.range m.heapsActualSize).takeWhile fun i => (m.availableHeaps i).isInit).find? fun i =>
    (m.availableHeaps i).isInHeap ptr

/-- A null pointer is `0`. -/
def free (m : MemoryManager) (ptr : ℕ) : MemoryManager :=
  if ptr = 0 then m
  else
    match m.heapOf ptr with
    | some i => { m with bytes := (m.availableHeaps i).free m.bytes ptr }
    | none => m

/-- `realloc` tries to resize the block where it is. -/
def resize (m : MemoryManager) (ptr size : ℕ) : Option ℕ × ℕ × MemoryManager :=
  if ptr = 0 then (none, 0, m)
  else
    match m.heapOf ptr with
    | some i =>
      let (reallocPtr, origPtrSize, bytes, h) :=
        (m.availableHeaps i).reallocInPlace m.bytes ptr size
      (reallocPtr, origPtrSize,
        { m with bytes, availableHeaps := Function.update m.availableHeaps i h })
    | none => (none, 0, m)

/-- `realloc` moves what the block holds to a new one. -/
def moveTo (m : MemoryManager) (newAlloc ptr size origPtrSize : ℕ) : MemoryManager :=
  let copySize := if size < origPtrSize then size else origPtrSize
  if 0 < copySize then
    free { m with bytes := copy m.bytes newAlloc ptr copySize } ptr
  else m

def realloc (grows : ℕ → Bool) (m : MemoryManager) (ptr size : ℕ) :
    Except String (Option ℕ × MemoryManager) :=
  if size = 0 then .ok (none, m.free ptr)
  else
    match m.resize ptr (adjustToMemBlock size) with
    | (some reallocPtr, _, m) => .ok (some reallocPtr, m)
    | (none, origPtrSize, m) =>
      match m.malloc grows (adjustToMemBlock size) with
      | .error e => .error e
      | .ok (none, m) => .ok (none, m)
      | .ok (some newAlloc, m) =>
        .ok (some newAlloc, m.moveTo newAlloc ptr (adjustToMemBlock size) origPtrSize)

/-- `calloc` fills what `malloc` has answered, a null pointer as well. -/
def calloc (grows : ℕ → Bool) (m : MemoryManager) (count size : ℕ) :
    Except String (Option ℕ × MemoryManager) :=
  match m.malloc grows (u32 (count * size)) with
  | .error e => .error e
  | .ok (ptr, m) =>
    .ok (ptr, { m with bytes := fill m.bytes (ptr.getD 0) 0 (u32 (count * size)) })

end MemoryManager

end Xidata.Allocator
