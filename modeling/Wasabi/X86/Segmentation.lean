import Wasabi.X86.Descriptors
import Wasabi.Allocator.Boxes

/-!
# How the processor uses the descriptor tables

The tables are in the memory of the heap. Loading a segment register checks
the descriptor and marks it, and an interrupt is looked up in all three tables.
The kernel runs at privilege level 0. What the processor would do after a
failed load is not modelled: the loads of the source are unsafe for a selector
that is invalid.
-/

set_option autoImplicit false

namespace Wasabi.X86.Segmentation
open Wasabi.Rust Wasabi.ObjectMemory Wasabi.RawBytes Wasabi.LittleEndian Wasabi.PackedRecord
open Wasabi.X86.Descriptors
open Wasabi.Allocator.FirstFit Wasabi.Allocator.Runs

/-- A limit is the offset of the last byte. -/
structure TableRegister where
  base : ℕ
  limit : ℕ

structure TaskRegister where
  selector : ℕ
  base : ℕ
  limit : ℕ

inductive DataRegister where
  | es
  | ds
  | fs
  | gs
  deriving DecidableEq, Repr

structure Cpu where
  gdtr : TableRegister
  idtr : TableRegister
  tr : TaskRegister
  cs : ℕ
  ss : ℕ
  data : DataRegister → ℕ

structure Kernel where
  client : Client
  cpu : Cpu

abbrev Kernel.memory (k : Kernel) : HeaderMemory := k.client.heap.memory

def Kernel.setMemory (k : Kernel) (m : HeaderMemory) : Kernel :=
  {k with client := {k.client with heap := {k.client.heap with memory := m}}}

/-- `GdtrParameters` and `IdtrParameters`. -/
def tableParameters (limit base : ℕ) : List UInt8 := pack [(2,limit),(8,base)]

/-- The operand of `lgdt` and `lidt`. -/
def loadTable (operand : List UInt8) : TableRegister := ⟨field operand 2 8,field operand 0 2⟩

def lgdt (operand : List UInt8) (k : Kernel) : Kernel :=
  {k with cpu := {k.cpu with gdtr := loadTable operand}}

def lidt (operand : List UInt8) (k : Kernel) : Kernel :=
  {k with cpu := {k.cpu with idtr := loadTable operand}}

section Load
variable (operand : List UInt8) (k : Kernel)

@[simp] theorem lgdt_client : (lgdt operand k).client = k.client := rfl

@[simp] theorem lidt_client : (lidt operand k).client = k.client := rfl

@[simp] theorem lidt_idtr : (lidt operand k).cpu.idtr = loadTable operand := rfl

@[simp] theorem lidt_gdtr : (lidt operand k).cpu.gdtr = k.cpu.gdtr := rfl

@[simp] theorem lidt_tr : (lidt operand k).cpu.tr = k.cpu.tr := rfl

@[simp] theorem lidt_cs : (lidt operand k).cpu.cs = k.cpu.cs := rfl

@[simp] theorem lidt_ss : (lidt operand k).cpu.ss = k.cpu.ss := rfl

@[simp] theorem lidt_data : (lidt operand k).cpu.data = k.cpu.data := rfl

end Load

def check (condition : Bool) : Eval Unit :=
  if condition then .ok () else .error .undefinedBehaviour

/-- The descriptor that a selector for the global table selects. -/
def fetch (gdtr : TableRegister) (m : HeaderMemory) (selector n : ℕ) : Option (List UInt8) :=
  if 8 ≤ selector ∧ selector%8 = 0 ∧ selector+n ≤ gdtr.limit+1 then peeks m (gdtr.base+selector) n
  else none

def markByte (bits : ℕ) (bytes : List UInt8) : UInt8 := UInt8.ofNat (field bytes 5 1 ||| bits)

/-- Check the descriptor and set bits in its byte 5. -/
def loadSegment (selector n : ℕ) (valid : Segment → Bool) (bits : ℕ) (k : Kernel) :
    Eval (List UInt8 × Kernel) := do
  let bytes ← deref (fetch k.cpu.gdtr k.memory selector n)
  check (valid (segmentOf bytes))
  pure (bytes,k.setMemory (poke (k.cpu.gdtr.base+selector+5) (markByte bits bytes) k.memory))

def availableTss (d : Segment) : Bool := !d.memory && d.kind = 9 && d.present

def kernelCode (d : Segment) : Bool :=
  d.memory && 8 ≤ d.kind && d.dpl = 0 && d.present && d.long && !d.wide

def kernelStack (d : Segment) : Bool :=
  d.memory && d.kind < 8 && d.kind/2%2 = 1 && d.dpl = 0 && d.present

def readableSegment (d : Segment) : Bool := d.memory && (d.kind < 8 || d.kind/2%2 = 1) && d.present

def ltr (selector : ℕ) (k : Kernel) : Eval Kernel := do
  let (bytes,k) ← loadSegment selector 16 availableTss 2 k
  pure {k with cpu := {k.cpu with tr := ⟨selector,systemBase bytes,(segmentOf bytes).limit⟩}}

def writeCs (selector : ℕ) (k : Kernel) : Eval Kernel := do
  let (_,k) ← loadSegment selector 8 kernelCode 1 k
  pure {k with cpu := {k.cpu with cs := selector}}

def writeSs (selector : ℕ) (k : Kernel) : Eval Kernel := do
  let (_,k) ← loadSegment selector 8 kernelStack 1 k
  pure {k with cpu := {k.cpu with ss := selector}}

def writeData (r : DataRegister) (selector : ℕ) (k : Kernel) : Eval Kernel := do
  let (_,k) ← loadSegment selector 8 readableSegment 1 k
  pure {k with cpu := {k.cpu with data := Function.update k.cpu.data r selector}}

/-- Where an interrupt goes: the first instruction, its segment, and the stack
pointer before the frame is pushed. -/
structure Delivery where
  handler : ℕ
  selector : ℕ
  sp : ℕ
  deriving DecidableEq

/-- Entry `i` of the stacks in the task state segment: the one of level 0, or
one of the interrupt stack table. -/
def taskStack (tr : TaskRegister) (m : HeaderMemory) (offset : ℕ) : Option ℕ :=
  if offset+8 ≤ tr.limit+1 then readWord m (tr.base+offset) else none

/-- The lookup for an interrupt at privilege level `cpl`. Nothing is delivered
if a check fails. -/
def dispatch (cpu : Cpu) (m : HeaderMemory) (rsp cpl : ℕ) (software : Bool) (vector : ℕ) :
    Option Delivery := do
  guard (16*vector+16 ≤ cpu.idtr.limit+1)
  let gate ← (peeks m (cpu.idtr.base+16*vector) 16).map gateOf
  guard (gate.kind = 14 ∧ gate.present ∧ (software → cpl ≤ gate.dpl))
  let code ← (fetch cpu.gdtr m gate.selector 8).map segmentOf
  guard (kernelCode code)
  let sp ← if gate.ist ≠ 0 then taskStack cpu.tr m (28+8*gate.ist)
    else if cpl ≠ 0 then taskStack cpu.tr m 4 else some rsp
  pure ⟨gate.offset,gate.selector,sp⟩

theorem loadTable_parameters (limit base : ℕ) (hl : limit < 2^16) (hb : base < 2^64) :
    loadTable (tableParameters limit base) = ⟨base,limit⟩ := by
  have h0 : field (tableParameters limit base) 0 2 = limit := field_pack _ [] _ 2 _ rfl hl
  have h2 : field (tableParameters limit base) 2 8 = base :=
    field_pack _ [(2,limit)] _ 8 _ rfl (by omega)
  rw [loadTable, h0, h2]

theorem fetch_ok (gdtr : TableRegister) (m : HeaderMemory) (selector n : ℕ) (bytes : List UInt8)
    (len : ℕ) (h : peeks m gdtr.base len = some bytes) (hlen : selector+n ≤ len)
    (h8 : 8 ≤ selector) (hal : selector%8 = 0) (hlim : selector+n ≤ gdtr.limit+1) :
    fetch gdtr m selector n = some ((bytes.drop selector).take n) := by
  rw [fetch, if_pos ⟨h8,hal,hlim⟩]
  exact peeks_slice m gdtr.base len selector n bytes h hlen

theorem loadSegment_ok (selector n : ℕ) (valid : Segment → Bool) (bits : ℕ) (k : Kernel)
    (bytes : List UInt8) (hf : fetch k.cpu.gdtr k.memory selector n = some bytes)
    (hv : valid (segmentOf bytes) = true) : loadSegment selector n valid bits k =
      .ok (bytes,
        k.setMemory (poke (k.cpu.gdtr.base+selector+5) (markByte bits bytes) k.memory)) := by
  rw [loadSegment, hf, deref_some, ok_bind, hv]
  rfl

end Wasabi.X86.Segmentation
