import Wasabi.Support.PackedRecord

/-!
# The formats of the descriptor tables

The records that the kernel fills in, with their packed layouts, and the
fields that the processor takes from the same bytes. The processor joins
fields that the records keep apart and splits others.
-/

set_option autoImplicit false

namespace Wasabi.X86.Descriptors
open Wasabi.LittleEndian Wasabi.PackedRecord

def bitFlagsIntgate : ℕ := 0b00001110

def bitFlagsPresent : ℕ := 0b10000000

def bitFlagsDpl0 : ℕ := 0 <<< 5

def bitFlagsDpl3 : ℕ := 3 <<< 5

inductive IdtAttr where
  | notPresent
  | intGateDpl0
  | intGateDpl3
  deriving DecidableEq, Repr

def IdtAttr.value : IdtAttr → ℕ
  | .notPresent => 0
  | .intGateDpl0 => bitFlagsIntgate ||| bitFlagsPresent ||| bitFlagsDpl0
  | .intGateDpl3 => bitFlagsIntgate ||| bitFlagsPresent ||| bitFlagsDpl3

structure IdtDescriptor where
  offsetLow : ℕ
  segmentSelector : ℕ
  istIndex : ℕ
  attr : IdtAttr
  offsetMid : ℕ
  offsetHigh : ℕ
  reserved : ℕ

def IdtDescriptor.new (segmentSelector istIndex : ℕ) (attr : IdtAttr) (f : UInt64) :
    IdtDescriptor where
  offsetLow := f.toNat%2^16
  offsetMid := (f.toNat >>> 16)%2^16
  offsetHigh := (f.toNat >>> 32)%2^32
  segmentSelector := segmentSelector
  istIndex := istIndex
  attr := attr
  reserved := 0

def IdtDescriptor.fields (d : IdtDescriptor) : Fields :=
  [(2,d.offsetLow),(2,d.segmentSelector),(1,d.istIndex),(1,d.attr.value),(2,d.offsetMid),
    (4,d.offsetHigh),(4,d.reserved)]

def IdtDescriptor.bytes (d : IdtDescriptor) : List UInt8 := pack d.fields

theorem idtDescriptor_length (d : IdtDescriptor) : d.bytes.length = 16 := by
  rw [IdtDescriptor.bytes, pack_length]
  rfl

/-- An entry of the interrupt descriptor table, as the processor reads it. -/
structure Gate where
  offset : ℕ
  selector : ℕ
  ist : ℕ
  kind : ℕ
  dpl : ℕ
  present : Bool
  deriving DecidableEq

def gateOf (bytes : List UInt8) : Gate where
  offset := field bytes 0 2+2^16*field bytes 6 2+2^32*field bytes 8 4
  selector := field bytes 2 2
  ist := field bytes 4 1%8
  kind := field bytes 5 1%16
  dpl := field bytes 5 1/32%4
  present := field bytes 5 1/128%2 = 1

theorem idtAttr_lt (attr : IdtAttr) : attr.value < 256 := by cases attr <;> decide

/-- The processor puts the three parts of the address together again. -/
theorem gate_new (selector ist : ℕ) (attr : IdtAttr) (f : UInt64) (hs : selector < 2^16)
    (hi : ist < 8) : gateOf (IdtDescriptor.new selector ist attr f).bytes =
      ⟨f.toNat,selector,ist,attr.value%16,attr.value/32%4,attr.value/128%2 = 1⟩ := by
  let d := IdtDescriptor.new selector ist attr f
  have hf := f.toNat_lt
  have h0 : field d.bytes 0 2 = f.toNat%2^16 :=
    field_pack d.fields [] _ 2 _ rfl (by omega)
  have h2 : field d.bytes 2 2 = selector :=
    field_pack d.fields [(2,d.offsetLow)] _ 2 _ rfl (by omega)
  have h4 : field d.bytes 4 1 = ist :=
    field_pack d.fields [(2,d.offsetLow),(2,selector)] _ 1 _ rfl (by omega)
  have h5 : field d.bytes 5 1 = attr.value :=
    field_pack d.fields [(2,d.offsetLow),(2,selector),(1,ist)] _ 1 _ rfl (idtAttr_lt attr)
  have h6 : field d.bytes 6 2 = (f.toNat >>> 16)%2^16 :=
    field_pack d.fields [(2,d.offsetLow),(2,selector),(1,ist),(1,attr.value)] _ 2 _ rfl (by omega)
  have h8 : field d.bytes 8 4 = (f.toNat >>> 32)%2^32 :=
    field_pack d.fields [(2,d.offsetLow),(2,selector),(1,ist),(1,attr.value),(2,d.offsetMid)] _ 4 _
      rfl (by omega)
  have hoff : f.toNat%2^16+2^16*((f.toNat >>> 16)%2^16)+2^32*((f.toNat >>> 32)%2^32) = f.toNat := by
    rw [Nat.shiftRight_eq_div_pow, Nat.shiftRight_eq_div_pow]
    omega
  change gateOf d.bytes = _
  rw [gateOf, h0, h2, h4, h5, h6, h8, hoff, Nat.mod_eq_of_lt hi]

def bitTypeData : ℕ := 0b10 <<< 43

def bitTypeCode : ℕ := 0b11 <<< 43

def bitPresent : ℕ := 1 <<< 47

def bitCsReadable : ℕ := 1 <<< 53

def bitDsWritable : ℕ := 1 <<< 41

inductive GtdAttr where
  | kernelCode
  | kernelData
  deriving DecidableEq, Repr

def GtdAttr.value : GtdAttr → ℕ
  | .kernelCode => bitTypeCode ||| bitPresent ||| bitCsReadable
  | .kernelData => bitTypeData ||| bitPresent ||| bitDsWritable

structure GdtSegmentDescriptor where
  value : ℕ

def GdtSegmentDescriptor.null : GdtSegmentDescriptor := ⟨0⟩

def GdtSegmentDescriptor.new (attr : GtdAttr) : GdtSegmentDescriptor := ⟨attr.value⟩

/-- The size of the task state segment. -/
def tssSize : ℕ := 104

structure TaskStateSegment64Descriptor where
  limitLow : ℕ
  baseLow : ℕ
  baseMidLow : ℕ
  attr : ℕ
  baseMidHigh : ℕ
  baseHigh : ℕ
  reserved : ℕ

def TaskStateSegment64Descriptor.new (baseAddr : ℕ) : TaskStateSegment64Descriptor where
  limitLow := tssSize
  baseLow := baseAddr &&& 0xffff
  baseMidLow := (baseAddr >>> 16) &&& 0xff
  attr := 0b1000000010001001
  baseMidHigh := (baseAddr >>> 24) &&& 0xff
  baseHigh := (baseAddr >>> 32) &&& 0xffffffff
  reserved := 0

def TaskStateSegment64Descriptor.fields (d : TaskStateSegment64Descriptor) : Fields :=
  [(2,d.limitLow),(2,d.baseLow),(1,d.baseMidLow),(2,d.attr),(1,d.baseMidHigh),(4,d.baseHigh),
    (4,d.reserved)]

structure Gdt where
  nullSegment : GdtSegmentDescriptor
  kernelCodeSegment : GdtSegmentDescriptor
  kernelDataSegment : GdtSegmentDescriptor
  taskStateSegment : TaskStateSegment64Descriptor

def Gdt.fields (g : Gdt) : Fields :=
  (8,g.nullSegment.value)::(8,g.kernelCodeSegment.value)::(8,g.kernelDataSegment.value)::
    g.taskStateSegment.fields

def Gdt.bytes (g : Gdt) : List UInt8 := pack g.fields

theorem gdt_length (g : Gdt) : g.bytes.length = 40 := by
  rw [Gdt.bytes, pack_length]
  rfl

/-- The table that `GdtWrapper::default` fills in. -/
def kernelGdt (tss : ℕ) : Gdt where
  nullSegment := .null
  kernelCodeSegment := .new .kernelCode
  kernelDataSegment := .new .kernelData
  taskStateSegment := .new tss

/-- A descriptor of a segment, as the processor reads it. A system descriptor
goes on with the upper half of its base. -/
structure Segment where
  base : ℕ
  limit : ℕ
  kind : ℕ
  memory : Bool
  dpl : ℕ
  present : Bool
  long : Bool
  wide : Bool
  deriving DecidableEq

/-- With the granularity bit the limit counts pages. -/
def scaledLimit (limit flags : ℕ) : ℕ := if flags/128%2 = 1 then limit*4096+4095 else limit

def segmentOf (bytes : List UInt8) : Segment where
  base := field bytes 2 3+2^24*field bytes 7 1
  limit := scaledLimit (field bytes 0 2+2^16*(field bytes 6 1%16)) (field bytes 6 1)
  kind := field bytes 5 1%16
  memory := field bytes 5 1/16%2 = 1
  dpl := field bytes 5 1/32%4
  present := field bytes 5 1/128%2 = 1
  long := field bytes 6 1/32%2 = 1
  wide := field bytes 6 1/64%2 = 1

/-- The base of a system descriptor. -/
def systemBase (bytes : List UInt8) : ℕ := (segmentOf bytes).base+2^32*field bytes 8 4

/-- The selected bit of byte 5 of a segment descriptor, which the processor
sets when it loads the segment. -/
def accessed : ℕ := 1 <<< 40

/-- A task state segment in use: bit 1 of byte 5 of its descriptor. -/
def busy : ℕ := 1 <<< 1

/-- The descriptors of the kernel once they are loaded. -/
def loadedGdt (tss : ℕ) : Gdt where
  nullSegment := .null
  kernelCodeSegment := ⟨GtdAttr.kernelCode.value ||| accessed⟩
  kernelDataSegment := ⟨GtdAttr.kernelData.value ||| accessed⟩
  taskStateSegment := {TaskStateSegment64Descriptor.new tss with
    attr := 0b1000000010001001 ||| busy}

/-- Four of the fields of the descriptor hold the base. -/
theorem tss_descriptor (tss attr : ℕ) (ht : tss < 2^64) (ha : attr < 2^16) :
    segmentOf (pack {TaskStateSegment64Descriptor.new tss with attr := attr}.fields) =
        ⟨tss%2^32,scaledLimit (104+2^16*(attr/256%16)) (attr/256),attr%16,attr/16%2 = 1,
          attr/32%4,attr/128%2 = 1,attr/256/32%2 = 1,attr/256/64%2 = 1⟩ ∧
      systemBase (pack {TaskStateSegment64Descriptor.new tss with attr := attr}.fields) = tss := by
  let d := {TaskStateSegment64Descriptor.new tss with attr := attr}
  have hlen : (pack d.fields).length = 16 := pack_length d.fields
  have hmask : ∀ n k : ℕ, (tss >>> n) &&& (2^k-1) = tss/2^n%2^k := by
    intro n k
    rw [Nat.and_two_pow_sub_one_eq_mod, Nat.shiftRight_eq_div_pow]
  have hlow : d.baseLow = tss%2^16 := Nat.and_two_pow_sub_one_eq_mod tss 16
  have hmid : d.baseMidLow = tss/2^16%2^8 := hmask 16 8
  have hmidHigh : d.baseMidHigh = tss/2^24%2^8 := hmask 24 8
  have hhigh : d.baseHigh = tss/2^32%2^32 := hmask 32 32
  have h0 : field (pack d.fields) 0 2 = 104 := field_pack d.fields [] _ 2 _ rfl (by decide)
  have h2 : field (pack d.fields) 2 2 = d.baseLow :=
    field_pack d.fields [(2,104)] _ 2 _ rfl (by omega)
  have h4 : field (pack d.fields) 4 1 = d.baseMidLow :=
    field_pack d.fields [(2,104),(2,d.baseLow)] _ 1 _ rfl (by omega)
  have h5 : field (pack d.fields) 5 2 = attr :=
    field_pack d.fields [(2,104),(2,d.baseLow),(1,d.baseMidLow)] _ 2 _ rfl (by omega)
  have h7 : field (pack d.fields) 7 1 = d.baseMidHigh :=
    field_pack d.fields [(2,104),(2,d.baseLow),(1,d.baseMidLow),(2,attr)] _ 1 _ rfl (by omega)
  have h8 : field (pack d.fields) 8 4 = d.baseHigh :=
    field_pack d.fields [(2,104),(2,d.baseLow),(1,d.baseMidLow),(2,attr),(1,d.baseMidHigh)] _ 4 _
      rfl (by omega)
  have hbase : field (pack d.fields) 2 3 = tss%2^16+2^16*(tss/2^16%2^8) := by
    rw [← hlow, ← hmid, ← h2, ← h4]
    exact field_split (pack d.fields) 2 2 1 (by omega)
  have hattr : field (pack d.fields) 5 2 =
      field (pack d.fields) 5 1+256*field (pack d.fields) 6 1 :=
    field_split (pack d.fields) 5 1 1 (by omega)
  have hb5 : field (pack d.fields) 5 1 < 256 := by
    have hv := value_lt (((pack d.fields).drop 5).take 1)
    rwa [List.length_take, List.length_drop, hlen] at hv
  have hb6 : field (pack d.fields) 6 1 < 256 := by
    have hv := value_lt (((pack d.fields).drop 6).take 1)
    rwa [List.length_take, List.length_drop, hlen] at hv
  have hf5 : field (pack d.fields) 5 1 = attr%256 := by omega
  have hf6 : field (pack d.fields) 6 1 = attr/256 := by omega
  have hseg : segmentOf (pack d.fields) =
      ⟨tss%2^32,scaledLimit (104+2^16*(attr/256%16)) (attr/256),attr%16,attr/16%2 = 1,
        attr/32%4,attr/128%2 = 1,attr/256/32%2 = 1,attr/256/64%2 = 1⟩ := by
    have h3 : field (pack d.fields) 2 3+2^24*field (pack d.fields) 7 1 = tss%2^32 := by
      rw [hbase, h7, hmidHigh]
      omega
    have hk : attr%256%16 = attr%16 := by omega
    have hm : attr%256/16%2 = attr/16%2 := by omega
    have hdpl : attr%256/32%4 = attr/32%4 := by omega
    have hp : attr%256/128%2 = attr/128%2 := by omega
    rw [segmentOf, h3, h0, hf5, hf6, hk, hm, hdpl, hp]
  refine ⟨hseg,?_⟩
  change (segmentOf (pack d.fields)).base+2^32*field (pack d.fields) 8 4 = tss
  rw [hseg, h8, hhigh]
  change tss%2^32+2^32*(tss/2^32%2^32) = tss
  omega

structure TaskStateSegment64Inner where
  reserved0 : ℕ
  rsp : List ℕ
  ist : List ℕ
  reserved1 : List ℕ
  ioMapBaseAddr : ℕ

def TaskStateSegment64Inner.fields (t : TaskStateSegment64Inner) : Fields :=
  (4,t.reserved0)::(t.rsp.map (fun x => (8,x))++(t.ist.map (fun x => (8,x))++
    (t.reserved1.map (fun x => (2,x))++[(2,t.ioMapBaseAddr)])))

def TaskStateSegment64Inner.bytes (t : TaskStateSegment64Inner) : List UInt8 := pack t.fields

/-- What `TaskStateSegment64::new` fills in, from the tops of eight stacks. -/
def kernelTss (rsp0 : ℕ) (tops : List ℕ) : TaskStateSegment64Inner where
  reserved0 := 0
  rsp := [rsp0,0,0]
  ist := 0::tops
  reserved1 := List.replicate 5 0
  ioMapBaseAddr := 0

theorem width_stacks (tops : List ℕ) : width (tops.map (fun x => (8,x))) = 8*tops.length := by
  induction tops with
  | nil => rfl
  | cons x tops ih =>
    rw [List.map_cons, width, List.map_cons, List.sum_cons, ← width, ih, List.length_cons]
    omega

theorem kernelTss_fields (rsp0 : ℕ) (tops : List ℕ) : (kernelTss rsp0 tops).fields =
    [(4,0),(8,rsp0),(8,0),(8,0),(8,0)]++(tops.map (fun x => (8,x))++
      ((List.replicate 5 0).map (fun x => (2,x))++[(2,0)])) := rfl

theorem kernelTss_length (rsp0 : ℕ) (tops : List ℕ) (h : tops.length = 7) :
    (kernelTss rsp0 tops).bytes.length = tssSize := by
  rw [TaskStateSegment64Inner.bytes, pack_length, kernelTss_fields, width_append, width_append,
    width_stacks, h]
  rfl

/-- Where the processor looks for a stack of the interrupt stack table. -/
theorem tss_stack (rsp0 : ℕ) (tops : List ℕ) (h : ∀ x ∈ tops, x < 2^64) (i : ℕ)
    (hi : i < tops.length) :
    field (kernelTss rsp0 tops).bytes (28+8*(i+1)) 8 = tops[i] := by
  let front : Fields := (tops.take i).map (fun x => (8,x))
  let back : Fields := (tops.drop (i+1)).map (fun x => (8,x))
  have hw : width ([(4,0),(8,rsp0),(8,0),(8,0),(8,0)]++front) = 28+8*(i+1) := by
    rw [width_append, width_stacks, List.length_take, Nat.min_eq_left hi.le]
    change 36+8*i = _
    omega
  have hsplit : tops.map (fun x => (8,x)) = front++(8,tops[i])::back := by
    simp only [front, back]
    rw [← List.map_cons, ← List.map_append, List.cons_getElem_drop_succ,
      List.take_append_drop]
  rw [← hw, TaskStateSegment64Inner.bytes, kernelTss_fields, hsplit, List.append_assoc,
    List.cons_append, ← List.append_assoc]
  exact field_pack _ _ _ 8 _ rfl (h _ (List.getElem_mem hi))

end Wasabi.X86.Descriptors
