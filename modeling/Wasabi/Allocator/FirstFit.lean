import Wasabi.Support.ObjectMemory
import Wasabi.Uefi.MemoryMap

/-!
# The first-fit allocator

Headers live in the memory they manage, and `next_header` owns the rest of
the list by address. Writing a header destroys whatever it overlaps, a header
that is not whole in memory cannot be read, and assigning over a link that is
still set drops a header, which panics.
-/

set_option autoImplicit false

namespace Wasabi.Allocator.FirstFit
open Wasabi.Rust Wasabi.WordBits Wasabi.ObjectMemory Wasabi.Uefi.MemoryMap

def roundUpToNearestPow2 (v : ℕ) : Except String ℕ :=
  okOr (checkedShl 1 (64-leadingZeros (wrappingSub v 1))) "Out of range"

structure Header where
  nextHeader : Option ℕ
  size : ℕ
  isAllocated : Bool
  reserved : ℕ
  deriving DecidableEq, Repr

def headerSize : ℕ := 32

/-- What `Layout::from_size_align` accepts: the alignment is a power of two
and the size rounded up to it is at most `isize::MAX`. -/
structure Layout where
  size : ℕ
  align : ℕ
  powerOfTwo : align.isPowerOfTwo
  fits : size+align ≤ isizeMax+1

abbrev HeaderMemory := Memory Header

def readHeader (m : HeaderMemory) (addr : ℕ) : Eval Header := deref (load headerSize m addr)

def writeHeader (m : HeaderMemory) (addr : ℕ) (h : Header) : HeaderMemory :=
  store headerSize addr h m

def setSize (m : HeaderMemory) (addr size : ℕ) : Eval HeaderMemory := do
  let h ← readHeader m addr
  pure (writeHeader m addr {h with size := size})

def setIsAllocated (m : HeaderMemory) (addr : ℕ) (isAllocated : Bool) : Eval HeaderMemory := do
  let h ← readHeader m addr
  pure (writeHeader m addr {h with isAllocated := isAllocated})

/-- `addr.next_header.take()`. -/
def takeNextHeader (m : HeaderMemory) (addr : ℕ) : Eval (HeaderMemory × Option ℕ) := do
  let h ← readHeader m addr
  pure (writeHeader m addr {h with nextHeader := none},h.nextHeader)

/-- `addr.next_header = next`; the value assigned over is dropped. -/
def setNextHeader (m : HeaderMemory) (addr : ℕ) (next : Option ℕ) : Eval HeaderMemory := do
  let h ← readHeader m addr
  match h.nextHeader with
  | some _ => .error (.panic "Header should not be dropped")
  | none => pure (writeHeader m addr {h with nextHeader := next})

def canProvide (h : Header) (size align : ℕ) : Eval Bool := do
  let n ← checkedAdd size (headerSize*2)
  let n ← checkedAdd n align
  pure (n ≤ h.size)

def endAddr (m : HeaderMemory) (addr : ℕ) : Eval ℕ := do
  let h ← readHeader m addr
  checkedAdd addr h.size

def newFromAddr (m : HeaderMemory) (addr : ℕ) : HeaderMemory :=
  writeHeader m addr ⟨none,0,false,0⟩

/-- The first paragraph of the cutting branch of `provide`: the header of the
request goes in front of the aligned address and takes over the link. -/
def placeAllocated (m : HeaderMemory) (self size align : ℕ) : Eval (HeaderMemory × ℕ × ℕ) := do
  let allocatedAddr := (← checkedSub (← endAddr m self) size) &&& complement 64 (align-1)
  let headerForAllocated ← checkedSub allocatedAddr headerSize
  let m := newFromAddr m headerForAllocated
  let m ← setIsAllocated m headerForAllocated true
  let m ← setSize m headerForAllocated (← checkedAdd size headerSize)
  let sizeUsed ← checkedAdd 0 (← readHeader m headerForAllocated).size
  let (m,next) ← takeNextHeader m self
  let m ← setNextHeader m headerForAllocated next
  pure (m,allocatedAddr,sizeUsed)

/-- The second paragraph: space left behind the request gets its own header. -/
def placePadding (m : HeaderMemory) (self headerForAllocated sizeUsed : ℕ) :
    Eval (HeaderMemory × ℕ) := do
  if (← endAddr m headerForAllocated) ≠ (← endAddr m self) then
    let headerForPadding ← endAddr m headerForAllocated
    let m := newFromAddr m headerForPadding
    let m ← setIsAllocated m headerForPadding false
    let padding ← checkedSub (← endAddr m self) (← endAddr m headerForAllocated)
    let m ← setSize m headerForPadding padding
    let sizeUsed ← checkedAdd sizeUsed (← readHeader m headerForPadding).size
    let (m,next) ← takeNextHeader m headerForAllocated
    let m ← setNextHeader m headerForPadding next
    let m ← setNextHeader m headerForAllocated (some headerForPadding)
    pure (m,sizeUsed)
  else pure (m,sizeUsed)

/-- The last paragraph: the block keeps what is left in front. -/
def shrink (m : HeaderMemory) (self headerForAllocated sizeUsed : ℕ) : Eval HeaderMemory := do
  let size := (← readHeader m self).size
  assert (size > (← checkedAdd sizeUsed headerSize))
    "assertion failed: self.size > size_used + HEADER_SIZE"
  let m ← setSize m self (← checkedSub size sizeUsed)
  setNextHeader m self (some headerForAllocated)

/-- `None` of the source's early returns leaves the memory as it is. -/
def provide (m : HeaderMemory) (self size align : ℕ) : Eval (HeaderMemory × Option ℕ) := do
  match roundUpToNearestPow2 size with
  | .error _ => pure (m,none)
  | .ok rounded =>
    let size := max rounded headerSize
    let align := max align headerSize
    let h ← readHeader m self
    if h.isAllocated then pure (m,none) else
    if !(← canProvide h size align) then pure (m,none) else
    let (m,allocatedAddr,sizeUsed) ← placeAllocated m self size align
    let headerForAllocated := allocatedAddr-headerSize
    let (m,sizeUsed) ← placePadding m self headerForAllocated sizeUsed
    let m ← shrink m self headerForAllocated sizeUsed
    pure (m,some allocatedAddr)

/-- The memory together with `ALLOCATOR.first_header`. -/
structure Heap where
  memory : HeaderMemory
  firstHeader : Option ℕ

/-- The loop over the cursor; the null pointer is returned at the end of the list. -/
def allocLoop : ℕ → HeaderMemory → Option ℕ → Layout → Eval (HeaderMemory × ℕ)
  | _, m, none, _ => .ok (m,0)
  | 0, _, some _, _ => .error .outOfFuel
  | fuel+1, m, some e, layout => do
    match ← provide m e layout.size layout.align with
    | (m,some p) => pure (m,p)
    | (m,none) =>
      let header := (← readHeader m e).nextHeader
      allocLoop fuel m header layout

def allocWithOptions (fuel : ℕ) (heap : Heap) (layout : Layout) : Eval (Heap × ℕ) := do
  let (m,p) ← allocLoop fuel heap.memory heap.firstHeader layout
  pure ({heap with memory := m},p)

/-- The header is found by address alone; leaking it keeps it in the list. -/
def dealloc (heap : Heap) (ptr : ℕ) : Eval Heap := do
  let region ← checkedSub ptr headerSize
  let m ← setIsAllocated heap.memory region false
  pure {heap with memory := m}

/-- Page zero is cut off a region that starts there. -/
def trimmedStart (startAddr : ℕ) : ℕ := if startAddr = 0 then startAddr+4096 else startAddr

def trimmedSize (startAddr size : ℕ) : ℕ :=
  if startAddr = 0 then saturatingSub size 4096 else size

/-- The part of a descriptor that is registered; it must exceed one page. -/
def usableRange (desc : EfiMemoryDescriptor) : Eval (Option (ℕ × ℕ)) := do
  let size ← checkedMul desc.numberOfPages 4096
  let startAddr := trimmedStart desc.physicalStart
  let size := trimmedSize desc.physicalStart size
  if size ≤ 4096 then pure none else pure (some (startAddr,size))

def addFreeFromDescriptor (heap : Heap) (desc : EfiMemoryDescriptor) : Eval Heap := do
  match ← usableRange desc with
  | none => pure heap
  | some (startAddr,size) =>
    let m := newFromAddr heap.memory startAddr
    let m ← setNextHeader m startAddr none
    let m ← setIsAllocated m startAddr false
    let m ← setSize m startAddr size
    let prevLast := heap.firstHeader
    let m ← setNextHeader m startAddr prevLast
    pure ⟨m,some startAddr⟩

def initWithMmap (fuel : ℕ) (heap : Heap) (memoryMap : MemoryMapHolder) : Eval Heap :=
  forEach (fun heap e =>
    if e.memoryType ≠ .conventionalMemory then pure heap else addFreeFromDescriptor heap e)
    fuel memoryMap.iter heap

end Wasabi.Allocator.FirstFit
