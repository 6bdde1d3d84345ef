import Wasabi.X86.Segmentation
import Wasabi.Allocator.Safety

/-!
# Setting up the exceptions on the heap

The eight stacks, the task state segment and both tables are boxes. Once they
are loaded, every vector leads to its entry point on a stack of its own kind,
and this stays so as long as nobody writes into the boxes.
-/

set_option autoImplicit false

namespace Wasabi.X86.Exceptions
open Wasabi.Uefi.Exit (wideMap wideMap_descriptors wideMap_contract)
open Wasabi.Rust Wasabi.ObjectMemory Wasabi.RawBytes Wasabi.LittleEndian Wasabi.PackedRecord
open Wasabi.Tiling Wasabi.Uefi.MemoryMap Wasabi.X86.Descriptors Wasabi.X86.Segmentation
open Wasabi.Allocator.FirstFit Wasabi.Allocator.Provide Wasabi.Allocator.BlockList
open Wasabi.Allocator.Registration Wasabi.Allocator.Runs Wasabi.Allocator.Safety
open Wasabi.Allocator.HiddenHeader (Spared run_keeps_live)
open Wasabi.Allocator.Boxes

/-- Where the linker puts the entry points, each at a place of its own. -/
structure EntryPoints where
  intHandlerUnimplemented : UInt64
  interruptEntrypoint3 : UInt64
  interruptEntrypoint6 : UInt64
  interruptEntrypoint8 : UInt64
  interruptEntrypoint13 : UInt64
  interruptEntrypoint14 : UInt64
  interruptEntrypoint32 : UInt64
  distinct : [intHandlerUnimplemented,interruptEntrypoint3,interruptEntrypoint6,
    interruptEntrypoint8,interruptEntrypoint13,interruptEntrypoint14,
    interruptEntrypoint32].Nodup

def kernelCs : ℕ := 1 <<< 3

def kernelDs : ℕ := 2 <<< 3

def tss64Sel : ℕ := 3 <<< 3

def handlerStackSize : ℕ := 64*1024

def stackLayout : Layout := ⟨handlerStackSize,1,⟨0,rfl⟩,by decide⟩

def tssLayout : Layout := ⟨tssSize,1,⟨0,rfl⟩,by decide⟩

def gdtLayout : Layout := ⟨40,1,⟨0,rfl⟩,by decide⟩

def idtLayout : Layout := ⟨4096,1,⟨0,rfl⟩,by decide⟩

/-- The stack stays allocated, and its top is the result. -/
def allocInterruptStack (fuel : ℕ) (s : Client) : Eval (Client × ℕ) := do
  let (s,stack) ← boxNew fuel stackLayout (List.replicate handlerStackSize 0) s
  pure (s,stack+handlerStackSize)

def allocStacks (fuel : ℕ) : ℕ → Client → Eval (Client × List ℕ)
  | 0, s => pure (s,[])
  | n+1, s => do
    let (s,top) ← allocInterruptStack fuel s
    let (s,tops) ← allocStacks fuel n s
    pure (s,top::tops)

/-- `TaskStateSegment64::new`, with the address of the segment. -/
def taskStateSegment64New (fuel : ℕ) (s : Client) : Eval (Client × ℕ) := do
  let (s,rsp0) ← allocInterruptStack fuel s
  let (s,ist) ← allocStacks fuel 7 s
  boxNew fuel tssLayout (kernelTss rsp0 ist).bytes s

/-- `GdtWrapper::default`, with the address of the table. -/
def gdtWrapperDefault (fuel : ℕ) (s : Client) : Eval (Client × ℕ) := do
  let (s,tss) ← taskStateSegment64New fuel s
  boxNew fuel gdtLayout (kernelGdt tss).bytes s

def gdtWrapperLoad (gdt : ℕ) (k : Kernel) : Eval Kernel :=
  ltr tss64Sel (lgdt (tableParameters (40-1) gdt) k)

def idtEntries (segmentSelector : ℕ) (entry : EntryPoints) : List IdtDescriptor :=
  let entries := List.replicate 0x100
    (IdtDescriptor.new segmentSelector 1 .intGateDpl0 entry.intHandlerUnimplemented)
  let entries := entries.set 3
    (.new segmentSelector 1 .intGateDpl3 entry.interruptEntrypoint3)
  let entries := entries.set 6
    (.new segmentSelector 1 .intGateDpl0 entry.interruptEntrypoint6)
  let entries := entries.set 8
    (.new segmentSelector 2 .intGateDpl0 entry.interruptEntrypoint8)
  let entries := entries.set 13
    (.new segmentSelector 1 .intGateDpl0 entry.interruptEntrypoint13)
  let entries := entries.set 14
    (.new segmentSelector 1 .intGateDpl0 entry.interruptEntrypoint14)
  entries.set 32 (.new segmentSelector 1 .intGateDpl0 entry.interruptEntrypoint32)

def idtBytes (segmentSelector : ℕ) (entry : EntryPoints) : List UInt8 :=
  (idtEntries segmentSelector entry).flatMap IdtDescriptor.bytes

/-- `size_of_val(&entries) as u16`. -/
def idtLimit : ℕ := 16*0x100%2^16

def idtNew (fuel segmentSelector : ℕ) (entry : EntryPoints) (k : Kernel) : Eval Kernel := do
  let (s,idt) ← boxNew fuel idtLayout (idtBytes segmentSelector entry) k.client
  pure (lidt (tableParameters idtLimit idt) {k with client := s})

def initExceptions (fuel : ℕ) (entry : EntryPoints) (k : Kernel) : Eval Kernel := do
  let (s,gdt) ← gdtWrapperDefault fuel k.client
  let k ← gdtWrapperLoad gdt {k with client := s}
  let k ← writeCs kernelCs k
  let k ← writeSs kernelDs k
  let k ← writeData .es kernelDs k
  let k ← writeData .ds kernelDs k
  let k ← writeData .fs kernelDs k
  let k ← writeData .gs kernelDs k
  idtNew fuel kernelCs entry k

/-- The entry point meant for a vector. -/
def EntryPoints.handler (entry : EntryPoints) (vector : ℕ) : UInt64 :=
  if vector = 3 then entry.interruptEntrypoint3
  else if vector = 6 then entry.interruptEntrypoint6
  else if vector = 8 then entry.interruptEntrypoint8
  else if vector = 13 then entry.interruptEntrypoint13
  else if vector = 14 then entry.interruptEntrypoint14
  else if vector = 32 then entry.interruptEntrypoint32
  else entry.intHandlerUnimplemented

def istOf (vector : ℕ) : ℕ := if vector = 8 then 2 else 1

/-- The lowest privilege that may raise a vector by an instruction. -/
def privilegeOf (vector : ℕ) : ℕ := if vector = 3 then 3 else 0

def attrOf (vector : ℕ) : IdtAttr := if vector = 3 then .intGateDpl3 else .intGateDpl0

theorem idtEntries_length (sel : ℕ) (entry : EntryPoints) :
    (idtEntries sel entry).length = 0x100 := by
  simp only [idtEntries, List.length_set, List.length_replicate]

theorem idtEntries_get (sel : ℕ) (entry : EntryPoints) (v : ℕ)
    (h : v < (idtEntries sel entry).length) :
    (idtEntries sel entry)[v] = .new sel (istOf v) (attrOf v) (entry.handler v) := by
  simp only [idtEntries, List.getElem_set, List.getElem_replicate]
  by_cases h3 : v = 3
  · subst h3; rfl
  by_cases h6 : v = 6
  · subst h6; rfl
  by_cases h8 : v = 8
  · subst h8; rfl
  by_cases h13 : v = 13
  · subst h13; rfl
  by_cases h14 : v = 14
  · subst h14; rfl
  by_cases h32 : v = 32
  · subst h32; rfl
  · simp only [istOf, attrOf, EntryPoints.handler, if_neg h3, if_neg h6, if_neg h8, if_neg h13,
      if_neg h14, if_neg h32, if_neg (Ne.symm h3), if_neg (Ne.symm h6), if_neg (Ne.symm h8),
      if_neg (Ne.symm h13), if_neg (Ne.symm h14), if_neg (Ne.symm h32)]

theorem idtBytes_length (sel : ℕ) (entry : EntryPoints) : (idtBytes sel entry).length = 4096 := by
  have h : ∀ ds : List IdtDescriptor, (ds.flatMap IdtDescriptor.bytes).length = 16*ds.length := by
    intro ds
    induction ds with
    | nil => rfl
    | cons d ds ih =>
      rw [List.flatMap_cons, List.length_append, idtDescriptor_length, ih, List.length_cons]
      omega
  rw [idtBytes, h, idtEntries_length]

/-- The table of the kernel, with the marks that loading leaves in it. -/
def gdtOf (code data attr tss : ℕ) : Gdt where
  nullSegment := .null
  kernelCodeSegment := ⟨code⟩
  kernelDataSegment := ⟨data⟩
  taskStateSegment := {TaskStateSegment64Descriptor.new tss with attr := attr}

def tssBytes (attr tss : ℕ) : List UInt8 :=
  pack {TaskStateSegment64Descriptor.new tss with attr := attr}.fields

theorem tssBytes_length (attr tss : ℕ) : (tssBytes attr tss).length = 16 := pack_length _

/-- Byte 5 is the lower one of the attributes. -/
theorem tssBytes_split (tss : ℕ) : ∃ front back, front.length = 5 ∧
    ∀ attr, tssBytes attr tss = front++(encode 2 attr++back) := by
  let d := TaskStateSegment64Descriptor.new tss
  refine ⟨pack [(2,d.limitLow),(2,d.baseLow),(1,d.baseMidLow)],
    pack [(1,d.baseMidHigh),(4,d.baseHigh),(4,d.reserved)],pack_length _,?_⟩
  intro attr
  rw [← pack_cons (2,attr), ← pack_append]
  rfl

theorem gdt_bytes (code data attr tss : ℕ) : (gdtOf code data attr tss).bytes =
    encode 8 0++(encode 8 code++(encode 8 data++tssBytes attr tss)) := by
  simp only [Gdt.bytes, Gdt.fields, pack_cons]
  rfl

theorem gdt_code (code data attr tss : ℕ) :
    ((gdtOf code data attr tss).bytes.drop 8).take 8 = encode 8 code := by
  rw [gdt_bytes, List.drop_left' (encode_length 8 0), List.take_left' (encode_length 8 code)]

/-- What the processor finds in memory once everything is loaded. -/
structure Tables (entry : EntryPoints) (cpu : Cpu) (m : HeaderMemory) (rsp0 : ℕ) (tops : List ℕ) :
    Prop where
  count : tops.length = 7
  bounded : ∀ x ∈ tops, x < 2^64
  idtr : cpu.idtr.limit = 4096
  idt : peeks m cpu.idtr.base 4096 = some (idtBytes kernelCs entry)
  gdtr : cpu.gdtr.limit = 39
  gdt : peeks m cpu.gdtr.base 40 = some (loadedGdt cpu.tr.base).bytes
  tr : tssSize ≤ cpu.tr.limit+1
  tss : peeks m cpu.tr.base tssSize = some (kernelTss rsp0 tops).bytes

section Lookup
variable (entry : EntryPoints) (cpu : Cpu) (m : HeaderMemory) (rsp0 : ℕ) (tops : List ℕ)
  (h : Tables entry cpu m rsp0 tops)
include h

theorem gate_found (v : ℕ) (hv : v < 256) : (peeks m (cpu.idtr.base+16*v) 16).map gateOf =
    some ⟨(entry.handler v).toNat,kernelCs,istOf v,14,privilegeOf v,true⟩ := by
  have hlen := idtEntries_length kernelCs entry
  have hist : istOf v < 8 := by
    unfold istOf
    split_ifs <;> decide
  rw [peeks_slice m cpu.idtr.base 4096 (16*v) 16 _ h.idt (by omega), idtBytes,
    record_slice IdtDescriptor.bytes 16 idtDescriptor_length _ v (by omega), idtEntries_get,
    Option.map_some, gate_new _ _ _ _ (by decide) hist, attrOf, privilegeOf]
  split_ifs
  · rfl
  · rfl

theorem code_found : (fetch cpu.gdtr m kernelCs 8).map segmentOf =
    some (segmentOf (encode 8 (GtdAttr.kernelCode.value ||| accessed))) := by
  rw [fetch_ok cpu.gdtr m kernelCs 8 _ 40 h.gdt (by decide) (by decide) (by decide)
    (by rw [h.gdtr]; decide), Option.map_some]
  exact congrArg (fun bytes => some (segmentOf bytes)) (gdt_code _ _ _ _)

theorem stack_found (i : ℕ) (hi : i < 7) :
    taskStack cpu.tr m (28+8*(i+1)) = some (tops.getD i 0) := by
  have hc := h.count
  have hlim : 28+8*(i+1)+8 ≤ tssSize := by
    unfold tssSize
    omega
  rw [taskStack, if_pos (hlim.trans h.tr), readWord,
    peeks_slice m cpu.tr.base tssSize _ 8 _ h.tss hlim, Option.map_some]
  have hstack := tss_stack rsp0 tops h.bounded i (by omega)
  rw [List.getD_eq_getElem _ _ (by omega), ← hstack]
  rfl

/-- An instruction may raise a vector only if its gate lets it. All else leads
to the entry point of the vector, on the stack that its gate names. -/
theorem dispatch_tables (rsp cpl : ℕ) (software : Bool) (v : ℕ) (hv : v < 256) :
    dispatch cpu m rsp cpl software v = if software = true ∧ privilegeOf v < cpl then none
      else some ⟨(entry.handler v).toNat,kernelCs,tops.getD (istOf v-1) 0⟩ := by
  have hguard : 16*v+16 ≤ cpu.idtr.limit+1 := by
    rw [h.idtr]
    omega
  have hist : istOf v ≠ 0 := by
    unfold istOf
    split_ifs <;> decide
  have hpos : istOf v-1 < 7 ∧ istOf v-1+1 = istOf v := by
    unfold istOf
    split_ifs <;> decide
  have hcode :
      kernelCode (segmentOf (encode 8 (GtdAttr.kernelCode.value ||| accessed))) = true := by
    decide
  have hstack := stack_found entry cpu m rsp0 tops h (istOf v-1) hpos.1
  rw [hpos.2] at hstack
  rw [dispatch, gate_found entry cpu m rsp0 tops h v hv]
  simp only [Option.bind_eq_bind, Option.bind_some, code_found entry cpu m rsp0 tops h, hcode,
    hstack, if_pos hist, guard, if_pos hguard, true_and]
  by_cases hs : software = true ∧ privilegeOf v < cpl
  · have hn : ¬ (software = true → cpl ≤ privilegeOf v) := fun hall => by
      have hle := hall hs.1
      omega
    rw [if_pos hs, if_neg hn]
    rfl
  · have hy : software = true → cpl ≤ privilegeOf v := fun ht => by
      by_contra hcon
      exact hs ⟨ht,by omega⟩
    rw [if_neg hs, if_pos hy]
    rfl

theorem dispatch_beyond (rsp cpl : ℕ) (software : Bool) (v : ℕ) (hv : 256 ≤ v) :
    dispatch cpu m rsp cpl software v = none := by
  have hguard : ¬ 16*v+16 ≤ cpu.idtr.limit+1 := by
    rw [h.idtr]
    omega
  rw [dispatch, guard, if_neg hguard]
  rfl

end Lookup

/-- The requests of `init_exceptions`, in order. -/
def exceptionLayouts : List Layout :=
  List.replicate 8 stackLayout++[tssLayout,gdtLayout,idtLayout]

/-- The boxes at the addresses that the requests were given. -/
def exceptionBoxes (ps : List ℕ) : List Allocation := List.zipWith Allocation.mk ps exceptionLayouts

/-- The run leaves the three tables alone and releases no stack. It may write
to the stacks. -/
def Respects (fuel : ℕ) (ps : List ℕ) (s : Client) (ops : List Op) : Prop :=
  Spares fuel ((exceptionBoxes ps).drop 8) s ops ∧
    ∀ a ∈ (exceptionBoxes ps).take 8, Spared fuel a s ops

def stackBox (p : ℕ) : Allocation × List UInt8 :=
  (⟨p,stackLayout⟩,List.replicate handlerStackSize 0)

section Build
variable (rs : List (ℕ × ℕ)) (hrs : rs.Pairwise Apart) (s : Client) (bs : List Block)

section Stacks
variable (boxes : List (Allocation × List UInt8)) (s1 : Client) (bs1 : List Block)
  (h : Stored rs s bs boxes s1 bs1)
include hrs h

theorem stack_requests (fuel : ℕ) (hf : bs.length+2*boxes.length ≤ fuel) :
    Requests [stackLayout] bs1 (allocInterruptStack fuel s1) (fun ps bs2 r =>
      ∃ p, ps = [p] ∧ r.2 = p+handlerStackSize ∧
        Stored rs s bs (stackBox p::boxes) r.1 bs2) := by
  apply requests_map _ _ _ _ _ _ (stored_box rs hrs s bs boxes s1 bs1 h fuel hf stackLayout
    (List.replicate handlerStackSize 0) (by decide) (by rw [List.length_replicate]; exact le_rfl))
  rintro ps bs2 ⟨s2,p⟩ ⟨rfl,hst⟩
  exact ⟨_,rfl,p,rfl,rfl,hst⟩

theorem stacks_request (fuel n : ℕ) (hf : bs.length+2*(boxes.length+n) ≤ fuel) :
    Requests (List.replicate n stackLayout) bs1 (allocStacks fuel n s1) (fun ps bs2 r =>
      ps.length = n ∧ r.2 = ps.map (·+handlerStackSize) ∧
        Stored rs s bs ((ps.map stackBox).reverse++boxes) r.1 bs2) := by
  induction n generalizing boxes s1 bs1 with
  | zero => exact requests_ok _ _ _ _ rfl ⟨rfl,rfl,h⟩
  | succ n ih =>
    apply requests_bind [stackLayout] _ _ _ _ _ _
      (stack_requests rs hrs s bs boxes s1 bs1 h fuel (by omega))
    rintro _ bs2 ⟨s2,top⟩ ⟨p,rfl,rfl,hst⟩
    apply requests_map _ _ _ _ _ _ (ih (stackBox p::boxes) s2 bs2 hst
      (by rw [List.length_cons]; omega))
    rintro ps bs3 ⟨s3,tops⟩ ⟨hlen,rfl,hst3⟩
    refine ⟨_,rfl,by simp [hlen],rfl,?_⟩
    rw [List.singleton_append, List.map_cons, List.reverse_cons, List.append_assoc]
    exact hst3

end Stacks

/-- The boxes behind the addresses of eight stacks and the segment. -/
def tssBoxes (sps : List ℕ) (tss : ℕ) : List (Allocation × List UInt8) :=
  (⟨tss,tssLayout⟩,(kernelTss (sps.getD 0 0+handlerStackSize)
    ((sps.drop 1).map (·+handlerStackSize))).bytes)::(sps.map stackBox).reverse

theorem tss_requests (hi : Inv rs s bs) (hrs : rs.Pairwise Apart) (fuel : ℕ)
    (hf : bs.length+16 ≤ fuel) :
    Requests (List.replicate 8 stackLayout++[tssLayout]) bs (taskStateSegment64New fuel s)
      (fun ps bs2 r => ∃ sps, sps.length = 8 ∧ ps = sps++[r.2] ∧
        Stored rs s bs (tssBoxes sps r.2) r.1 bs2) := by
  apply requests_bind [stackLayout] _ _ _ (List.replicate 7 stackLayout++[tssLayout]) _ _
    (stack_requests rs hrs s bs [] s bs (stored_start rs s bs hi) fuel (by simp; omega))
  rintro _ bs1 ⟨s1,rsp0⟩ ⟨p,rfl,rfl,hst1⟩
  apply requests_bind (List.replicate 7 stackLayout) _ _ _ [tssLayout] _ _
    (stacks_request rs hrs s bs _ s1 bs1 hst1 fuel 7 (by simp; omega))
  rintro ps bs2 ⟨s2,tops⟩ ⟨hlen,rfl,hst2⟩
  have hsize : (kernelTss (p+handlerStackSize) (ps.map (·+handlerStackSize))).bytes.length =
      tssSize := kernelTss_length _ _ (by rw [List.length_map, hlen])
  have hbox := stored_box rs hrs s bs _ s2 bs2 hst2 fuel (by simp [hlen]; omega) tssLayout
    (kernelTss (p+handlerStackSize) (ps.map (·+handlerStackSize))).bytes (by decide) hsize.le
  refine ⟨hbox.1,?_⟩
  intro qs bs3 hfit
  obtain ⟨⟨s3,tss⟩,hrun,rfl,hst3⟩ := hbox.2 qs bs3 hfit
  refine ⟨_,hrun,p::ps,by rw [List.length_cons, hlen],rfl,?_⟩
  rw [tssBoxes, List.map_cons, List.reverse_cons]
  exact hst3

section Loads
variable (boxes : List (Allocation × List UInt8)) (gdt : ℕ) (bs' : List Block)

/-- The processor uses the table in a box of these bytes. -/
structure Loaded (bytes : List UInt8) (k : Kernel) : Prop where
  stored : Stored rs s bs ((⟨gdt,gdtLayout⟩,bytes)::boxes) k.client bs'
  gdtr : k.cpu.gdtr = ⟨gdt,39⟩

include hrs

theorem load_runs (selector n : ℕ) (valid : Segment → Bool) (bits : ℕ) (pre mid post : List UInt8)
    (k : Kernel) (hl : Loaded rs s bs boxes gdt bs' (pre++(mid++post)) k)
    (hpre : pre.length = selector) (hmid : mid.length = n) (hall : selector+n ≤ 40)
    (h8 : 8 ≤ selector) (hal : selector%8 = 0) (h5 : 5 < n) (hv : valid (segmentOf mid) = true) :
    ∃ k', loadSegment selector n valid bits k = .ok (mid,k') ∧ k'.cpu = k.cpu ∧
      Loaded rs s bs boxes gdt bs' (pre++(mid.set 5 (markByte bits mid)++post)) k' := by
  obtain ⟨hroom,hbytes⟩ := hl.stored.holds _ List.mem_cons_self
  change (pre++(mid++post)).length ≤ 40 at hroom
  change peeks k.memory gdt (pre++(mid++post)).length = _ at hbytes
  have hlen : (pre++(mid++post)).length = selector+n+post.length := by
    rw [List.length_append, List.length_append, hpre, hmid, Nat.add_assoc]
  have hset : (pre++(mid++post)).set (selector+5) (markByte bits mid) =
      pre++(mid.set 5 (markByte bits mid)++post) := by
    rw [List.set_append_right _ _ (by omega), hpre, Nat.add_sub_cancel_left,
      List.set_append_left _ _ (by omega)]
  have hfetch : fetch k.cpu.gdtr k.memory selector n = some mid := by
    rw [fetch_ok k.cpu.gdtr k.memory selector n _ _ (by rw [hl.gdtr]; exact hbytes) (by omega)
      h8 hal (by rw [hl.gdtr]; exact hall), List.drop_left' hpre,
      List.take_left' hmid]
  refine ⟨_,loadSegment_ok selector n valid bits k mid hfetch hv,rfl,?_,hl.gdtr⟩
  rw [hl.gdtr]
  change Stored rs s bs _ (k.setMemory (poke (gdt+selector+5) _ k.memory)).client bs'
  rw [Nat.add_assoc]
  apply stored_write rs hrs s bs _ k.client bs' hl.stored [] boxes ⟨gdt,gdtLayout⟩ _ _ rfl
  · rw [← hset, List.length_set]
  · intro x hx
    apply poke_outside
    rintro rfl
    exact hx ⟨Nat.le_add_right _ _,by change _ < gdt+40; omega⟩
  · rw [← hset, List.length_set]
    exact peeks_poke _ _ _ _ _ _ hbytes (by omega)

/-- Loading the task register leaves the segment marked as busy. -/
theorem ltr_runs (code data tss : ℕ) (ht : tss < 2^64) (k : Kernel) (hl : Loaded rs s bs boxes gdt
    bs' (gdtOf code data 0b1000000010001001 tss).bytes k) :
    ∃ k', ltr tss64Sel k = .ok k' ∧
      k'.cpu = {k.cpu with tr := ⟨tss64Sel,tss,tssSize*4096+4095⟩} ∧
      Loaded rs s bs boxes gdt bs'
        (gdtOf code data (0b1000000010001001 ||| busy) tss).bytes k' := by
  obtain ⟨hseg,hbase⟩ := tss_descriptor tss 0b1000000010001001 ht (by decide)
  have hmark : (tssBytes 0b1000000010001001 tss).set 5
      (markByte 2 (tssBytes 0b1000000010001001 tss)) =
        tssBytes (0b1000000010001001 ||| busy) tss := by
    obtain ⟨front,back,hfront,hsplit⟩ := tssBytes_split tss
    have h5 : field (tssBytes 0b1000000010001001 tss) 5 1 = 0b10001001 := by
      rw [hsplit, field_append _ _ _ _ hfront]
      rfl
    rw [markByte, h5, hsplit, hsplit, List.set_append_right _ _ hfront.le, hfront]
    rfl
  have hvalid : availableTss (segmentOf (tssBytes 0b1000000010001001 tss)) = true := by
    rw [tssBytes, hseg]
    rfl
  rw [gdt_bytes, ← List.append_assoc, ← List.append_assoc,
    ← List.append_nil (tssBytes 0b1000000010001001 tss)] at hl
  obtain ⟨k',hrun,hcpu,hl'⟩ := load_runs rs hrs s bs boxes gdt bs' tss64Sel 16 availableTss 2 _ _
    _ k hl (by simp [tss64Sel]) (tssBytes_length _ _) (by decide) (by decide) (by decide)
    (by decide) hvalid
  rw [hmark, List.append_nil, List.append_assoc, List.append_assoc, ← gdt_bytes] at hl'
  refine ⟨{k' with cpu := {k'.cpu with tr := ⟨tss64Sel,tss,tssSize*4096+4095⟩}},?_,?_,
    hl'.stored,hl'.gdtr⟩
  · rw [ltr, hrun]
    change Except.ok {k' with cpu := {k'.cpu with tr := ⟨tss64Sel,systemBase (tssBytes _ tss),
      (segmentOf (tssBytes _ tss)).limit⟩}} = _
    rw [tssBytes, hbase, hseg]
    rfl
  · rw [hcpu]

theorem code_runs (data attr tss : ℕ) (k : Kernel) (hl : Loaded rs s bs boxes gdt bs'
    (gdtOf GtdAttr.kernelCode.value data attr tss).bytes k) :
    ∃ k', writeCs kernelCs k = .ok k' ∧ k'.cpu = {k.cpu with cs := kernelCs} ∧
      Loaded rs s bs boxes gdt bs'
        (gdtOf (GtdAttr.kernelCode.value ||| accessed) data attr tss).bytes k' := by
  have hmark : (encode 8 GtdAttr.kernelCode.value).set 5
      (markByte 1 (encode 8 GtdAttr.kernelCode.value)) =
      encode 8 (GtdAttr.kernelCode.value ||| accessed) := by decide
  rw [gdt_bytes] at hl
  obtain ⟨k',hrun,hcpu,hl'⟩ := load_runs rs hrs s bs boxes gdt bs' kernelCs 8 kernelCode 1 _ _ _ k
    hl (encode_length 8 0) (encode_length 8 _) (by decide) (by decide) (by decide) (by decide)
    (by decide)
  rw [hmark, ← gdt_bytes] at hl'
  refine ⟨{k' with cpu := {k'.cpu with cs := kernelCs}},?_,?_,hl'.stored,hl'.gdtr⟩
  · rw [writeCs, hrun]
    rfl
  · rw [hcpu]

/-- The first load of the data segment marks it, the later ones find the mark. -/
theorem data_loads (code attr tss data : ℕ)
    (hd : data = GtdAttr.kernelData.value ∨ data = GtdAttr.kernelData.value ||| accessed)
    (valid : Segment → Bool) (hv : valid (segmentOf (encode 8 data)) = true) (k : Kernel)
    (hl : Loaded rs s bs boxes gdt bs' (gdtOf code data attr tss).bytes k) :
    ∃ k', loadSegment kernelDs 8 valid 1 k = .ok (encode 8 data,k') ∧ k'.cpu = k.cpu ∧
      Loaded rs s bs boxes gdt bs'
        (gdtOf code (GtdAttr.kernelData.value ||| accessed) attr tss).bytes k' := by
  have hmark : (encode 8 data).set 5 (markByte 1 (encode 8 data)) =
      encode 8 (GtdAttr.kernelData.value ||| accessed) := by
    rcases hd with rfl | rfl
    · decide
    · decide
  rw [gdt_bytes, ← List.append_assoc] at hl
  obtain ⟨k',hrun,hcpu,hl'⟩ := load_runs rs hrs s bs boxes gdt bs' kernelDs 8 valid 1 _ _ _ k
    hl (by simp [kernelDs]) (encode_length 8 _) (by decide) (by decide) (by decide) (by decide) hv
  rw [hmark, List.append_assoc, ← gdt_bytes] at hl'
  exact ⟨k',hrun,hcpu,hl'⟩

theorem stack_segment_runs (code attr tss : ℕ) (k : Kernel) (hl : Loaded rs s bs boxes gdt bs'
    (gdtOf code GtdAttr.kernelData.value attr tss).bytes k) :
    ∃ k', writeSs kernelDs k = .ok k' ∧ k'.cpu = {k.cpu with ss := kernelDs} ∧
      Loaded rs s bs boxes gdt bs'
        (gdtOf code (GtdAttr.kernelData.value ||| accessed) attr tss).bytes k' := by
  obtain ⟨k',hrun,hcpu,hl'⟩ := data_loads rs hrs s bs boxes gdt bs' code attr tss _ (Or.inl rfl)
    kernelStack (by decide) k hl
  refine ⟨{k' with cpu := {k'.cpu with ss := kernelDs}},?_,?_,hl'.stored,hl'.gdtr⟩
  · rw [writeSs, hrun]
    rfl
  · rw [hcpu]

theorem data_segment_runs (code attr tss : ℕ) (r : DataRegister) (k : Kernel)
    (hl : Loaded rs s bs boxes gdt bs'
      (gdtOf code (GtdAttr.kernelData.value ||| accessed) attr tss).bytes k) :
    ∃ k', writeData r kernelDs k = .ok k' ∧
      k'.cpu = {k.cpu with data := Function.update k.cpu.data r kernelDs} ∧
      Loaded rs s bs boxes gdt bs'
        (gdtOf code (GtdAttr.kernelData.value ||| accessed) attr tss).bytes k' := by
  obtain ⟨k',hrun,hcpu,hl'⟩ := data_loads rs hrs s bs boxes gdt bs' code attr tss _ (Or.inr rfl)
    readableSegment (by decide) k hl
  refine ⟨{k' with cpu := {k'.cpu with data := Function.update k'.cpu.data r kernelDs}},?_,?_,
    hl'.stored,hl'.gdtr⟩
  · rw [writeData, hrun]
    rfl
  · rw [hcpu]

end Loads

def finalBoxes (entry : EntryPoints) (sps : List ℕ) (tss gdt idt : ℕ) :
    List (Allocation × List UInt8) :=
  (⟨idt,idtLayout⟩,idtBytes kernelCs entry)::(⟨gdt,gdtLayout⟩,(loadedGdt tss).bytes)::
    tssBoxes sps tss

theorem finalBoxes_map (entry : EntryPoints) (sps : List ℕ) (tss gdt idt : ℕ)
    (h : sps.length = 8) : (finalBoxes entry sps tss gdt idt).map Prod.fst =
      (exceptionBoxes (sps++[tss,gdt,idt])).reverse := by
  match sps, h with
  | [_,_,_,_,_,_,_,_], _ => rfl

theorem finalTables_map (entry : EntryPoints) (sps : List ℕ) (tss gdt idt : ℕ)
    (h : sps.length = 8) : ((finalBoxes entry sps tss gdt idt).take 3).reverse.map Prod.fst =
      (exceptionBoxes (sps++[tss,gdt,idt])).drop 8 := by
  match sps, h with
  | [_,_,_,_,_,_,_,_], _ => rfl

/-- The kernel after `init_exceptions`, with the addresses of its boxes. -/
structure Ready (entry : EntryPoints) (ps : List ℕ) (bs' : List Block) (k : Kernel) : Prop where
  boxes : ∃ sps tss gdt idt, sps.length = 8 ∧ ps = sps++[tss,gdt,idt] ∧
    Stored rs s bs (finalBoxes entry sps tss gdt idt) k.client bs' ∧
    k.cpu.idtr = ⟨idt,4096⟩ ∧ k.cpu.gdtr = ⟨gdt,39⟩ ∧
    k.cpu.tr = ⟨tss64Sel,tss,tssSize*4096+4095⟩
  cs : k.cpu.cs = kernelCs
  ss : k.cpu.ss = kernelDs
  data : ∀ r, k.cpu.data r = kernelDs

theorem gdt_requests (hi : Inv rs s bs) (hrs : rs.Pairwise Apart) (fuel : ℕ)
    (hf : bs.length+18 ≤ fuel) :
    Requests ((List.replicate 8 stackLayout++[tssLayout])++[gdtLayout]) bs
      (gdtWrapperDefault fuel s) (fun ps bs2 r => ∃ sps tss, sps.length = 8 ∧
        ps = sps++[tss,r.2] ∧ Stored rs s bs ((⟨r.2,gdtLayout⟩,(kernelGdt tss).bytes)::
          tssBoxes sps tss) r.1 bs2) := by
  apply requests_bind _ _ _ _ [gdtLayout] _ _ (tss_requests rs s bs hi hrs fuel (by omega))
  rintro _ bs1 ⟨s1,tss⟩ ⟨sps,hlen,rfl,hst⟩
  have hbox := stored_box rs hrs s bs _ s1 bs1 hst fuel (by simp [tssBoxes, hlen]; omega) gdtLayout
    (kernelGdt tss).bytes (by decide) (gdt_length _).le
  refine ⟨hbox.1,?_⟩
  intro qs bs2 hfit
  obtain ⟨⟨s2,gdt⟩,hrun,rfl,hst2⟩ := hbox.2 qs bs2 hfit
  exact ⟨_,hrun,sps,tss,hlen,by simp,hst2⟩

/-- All loads between the two tables succeed. -/
theorem loads_run (hrs : rs.Pairwise Apart) (boxes : List (Allocation × List UInt8))
    (gdt tss : ℕ) (ht : tss < 2^64) (bs' : List Block) (k : Kernel)
    (hl : Loaded rs s bs boxes gdt bs' (kernelGdt tss).bytes k) : ∃ k1 k2 k3 k4 k5 k6 k',
      ltr tss64Sel k = .ok k1 ∧ writeCs kernelCs k1 = .ok k2 ∧ writeSs kernelDs k2 = .ok k3 ∧
      writeData .es kernelDs k3 = .ok k4 ∧ writeData .ds kernelDs k4 = .ok k5 ∧
      writeData .fs kernelDs k5 = .ok k6 ∧ writeData .gs kernelDs k6 = .ok k' ∧
      Loaded rs s bs boxes gdt bs' (loadedGdt tss).bytes k' ∧
      k'.cpu.tr = ⟨tss64Sel,tss,tssSize*4096+4095⟩ ∧ k'.cpu.cs = kernelCs ∧
      k'.cpu.ss = kernelDs ∧ ∀ r, k'.cpu.data r = kernelDs := by
  obtain ⟨k1,h1,hc1,hl1⟩ := ltr_runs rs hrs s bs boxes gdt bs' _ _ tss ht k hl
  obtain ⟨k2,h2,hc2,hl2⟩ := code_runs rs hrs s bs boxes gdt bs' _ _ tss k1 hl1
  obtain ⟨k3,h3,hc3,hl3⟩ := stack_segment_runs rs hrs s bs boxes gdt bs' _ _ tss k2 hl2
  obtain ⟨k4,h4,hc4,hl4⟩ := data_segment_runs rs hrs s bs boxes gdt bs' _ _ tss .es k3 hl3
  obtain ⟨k5,h5,hc5,hl5⟩ := data_segment_runs rs hrs s bs boxes gdt bs' _ _ tss .ds k4 hl4
  obtain ⟨k6,h6,hc6,hl6⟩ := data_segment_runs rs hrs s bs boxes gdt bs' _ _ tss .fs k5 hl5
  obtain ⟨k7,h7,hc7,hl7⟩ := data_segment_runs rs hrs s bs boxes gdt bs' _ _ tss .gs k6 hl6
  refine ⟨k1,k2,k3,k4,k5,k6,k7,h1,h2,h3,h4,h5,h6,h7,hl7,?_,?_,?_,?_⟩
  · rw [hc7, hc6, hc5, hc4, hc3, hc2, hc1]
  · rw [hc7, hc6, hc5, hc4, hc3, hc2]
  · rw [hc7, hc6, hc5, hc4, hc3]
  · intro r
    rw [hc7, hc6, hc5, hc4]
    cases r <;> simp

omit s bs in
theorem exceptionLayouts_eq : exceptionLayouts =
    ((List.replicate 8 stackLayout++[tssLayout])++[gdtLayout])++[idtLayout] := rfl

theorem exception_requests (hi : Inv rs s bs) (hrs : rs.Pairwise Apart)
    (hb : ∀ r ∈ rs, r.2 < 2^64) (entry : EntryPoints) (cpu : Cpu) (fuel : ℕ)
    (hf : bs.length+20 ≤ fuel) : Requests exceptionLayouts bs (initExceptions fuel entry ⟨s,cpu⟩)
      (fun ps bs' k => Ready rs s bs entry ps bs' k) := by
  rw [exceptionLayouts_eq]
  apply requests_bind _ _ _ _ [idtLayout] _ _ (gdt_requests rs s bs hi hrs fuel (by omega))
  rintro _ bs1 ⟨s1,gdt⟩ ⟨sps,tss,hlen,rfl,hst⟩
  have hbelow : ∀ (boxes : List (Allocation × List UInt8)) (s' : Client) (bs' : List Block),
      Stored rs s bs boxes s' bs' → ∀ b ∈ boxes, b.1.ptr < 2^64 := by
    intro boxes s' bs' hst' b hbm
    obtain ⟨r,hr,-,hle⟩ := stored_inside rs s bs boxes s' bs' hst' b hbm
    exact lt_of_le_of_lt ((Nat.le_add_right _ _).trans hle) (hb r hr)
  have hgdt := hbelow _ s1 bs1 hst _ List.mem_cons_self
  have htss := hbelow _ s1 bs1 hst _ (List.mem_cons_of_mem _ List.mem_cons_self)
  have hl0 : Loaded rs s bs (tssBoxes sps tss) gdt bs1 (kernelGdt tss).bytes
      (lgdt (tableParameters (40-1) gdt) ⟨s1,cpu⟩) :=
    ⟨hst,loadTable_parameters 39 gdt (by decide) hgdt⟩
  obtain ⟨k1,k2,k3,k4,k5,k6,k7,h1,h2,h3,h4,h5,h6,h7,hl7,htr,hcs,hss,hdata⟩ :=
    loads_run rs s bs hrs _ gdt tss htss bs1 _ hl0
  have hload : gdtWrapperLoad gdt ⟨s1,cpu⟩ = .ok k1 := h1
  simp only [hload, h2, h3, h4, h5, h6, h7, ok_bind]
  have hroom : bs.length+2*((⟨gdt,gdtLayout⟩,(loadedGdt tss).bytes)::tssBoxes sps tss).length ≤
      fuel := by
    simp [tssBoxes, hlen]
    omega
  apply requests_map _ _ _ _ _ _ (stored_box rs hrs s bs _ k7.client bs1 hl7.stored fuel hroom
    idtLayout (idtBytes kernelCs entry) (by decide) (idtBytes_length _ _).le)
  rintro _ bs2 ⟨s2,idt⟩ ⟨rfl,hst2⟩
  have hidt := hbelow _ s2 bs2 hst2 _ List.mem_cons_self
  have hidtr : loadTable (tableParameters idtLimit idt) = ⟨idt,4096⟩ :=
    loadTable_parameters 4096 idt (by decide) hidt
  refine ⟨_,rfl,⟨⟨sps,tss,gdt,idt,hlen,by simp,?_,?_,?_,?_⟩,?_,?_,?_⟩⟩
  · rw [lidt_client]
    exact hst2
  · rw [lidt_idtr, hidtr]
  · rw [lidt_gdtr]
    exact hl7.gdtr
  · rw [lidt_tr]
    exact htr
  · rw [lidt_cs]
    exact hcs
  · rw [lidt_ss]
    exact hss
  · rw [lidt_data]
    exact hdata

/-- While the boxes hold what was put into them, the processor finds it. -/
theorem ready_tables (hb : ∀ r ∈ rs, r.2 < 2^64) (entry : EntryPoints) (sps : List ℕ)
    (tss gdt idt : ℕ) (hlen : sps.length = 8) (s' : Client) (bs' : List Block)
    (hst : Stored rs s bs (finalBoxes entry sps tss gdt idt) s' bs') (cpu : Cpu)
    (hidtr : cpu.idtr = ⟨idt,4096⟩) (hgdtr : cpu.gdtr = ⟨gdt,39⟩)
    (htr : cpu.tr = ⟨tss64Sel,tss,tssSize*4096+4095⟩) (m : HeaderMemory)
    (hm : ∀ b ∈ (finalBoxes entry sps tss gdt idt).take 3,
      peeks m b.1.ptr b.2.length = some b.2) :
    Tables entry cpu m (sps.getD 0 0+handlerStackSize) ((sps.drop 1).map (·+handlerStackSize)) := by
  have hcount : ((sps.drop 1).map (·+handlerStackSize)).length = 7 := by simp [hlen]
  have hidt := hm _ List.mem_cons_self
  have hgdt := hm _ (List.mem_cons_of_mem _ List.mem_cons_self)
  have htss := hm _ (List.mem_cons_of_mem _ (List.mem_cons_of_mem _ List.mem_cons_self))
  rw [idtBytes_length] at hidt
  rw [gdt_length] at hgdt
  rw [kernelTss_length _ _ hcount] at htss
  refine ⟨hcount,?_,by rw [hidtr],by rw [hidtr]; exact hidt,by rw [hgdtr],
    by rw [hgdtr, htr]; exact hgdt,by rw [htr]; show tssSize ≤ tssSize*4096+4095+1; decide,
    by rw [htr]; exact htss⟩
  intro x hx
  obtain ⟨p,hp,rfl⟩ := List.mem_map.mp hx
  have hbox : stackBox p ∈ finalBoxes entry sps tss gdt idt := by
    apply List.mem_cons_of_mem
    apply List.mem_cons_of_mem
    apply List.mem_cons_of_mem
    exact List.mem_reverse.mpr (List.mem_map_of_mem (List.mem_of_mem_drop hp))
  obtain ⟨r,hr,-,hle⟩ := stored_inside rs s bs _ s' bs' hst _ hbox
  exact lt_of_le_of_lt hle (hb r hr)

/-- Every vector that the table has is delivered to its entry point, on the
stack in the box that is meant for it. -/
structure Vectored (entry : EntryPoints) (ps : List ℕ) (cpu : Cpu) (s : Client) : Prop where
  count : ps.length = 11
  distinct : ps.Nodup
  live : ∀ a ∈ exceptionBoxes ps, a ∈ s.live
  delivery : ∀ rsp cpl software v, v < 256 → dispatch cpu s.heap.memory rsp cpl software v =
    if software = true ∧ privilegeOf v < cpl then none
    else some ⟨(entry.handler v).toNat,kernelCs,ps.getD (istOf v) 0+handlerStackSize⟩
  beyond : ∀ rsp cpl software v, 256 ≤ v → dispatch cpu s.heap.memory rsp cpl software v = none

theorem tables_vectored (entry : EntryPoints) (sps : List ℕ) (tss gdt idt rsp0 : ℕ)
    (hlen : sps.length = 8) (cpu : Cpu) (s' : Client)
    (ht : Tables entry cpu s'.heap.memory rsp0 ((sps.drop 1).map (·+handlerStackSize)))
    (hd : (sps++[tss,gdt,idt]).Nodup)
    (hlive : ∀ a ∈ exceptionBoxes (sps++[tss,gdt,idt]), a ∈ s'.live) :
    Vectored entry (sps++[tss,gdt,idt]) cpu s' := by
  refine ⟨by simp [hlen],hd,hlive,?_,
    fun rsp cpl software v hv => dispatch_beyond _ _ _ _ _ ht rsp cpl software v hv⟩
  intro rsp cpl software v hv
  have hist : istOf v-1+1 = istOf v ∧ istOf v < 8 := by
    unfold istOf
    split_ifs <;> decide
  have htop : ((sps.drop 1).map (·+handlerStackSize)).getD (istOf v-1) 0 =
      (sps++[tss,gdt,idt]).getD (istOf v) 0+handlerStackSize := by
    rw [List.getD_eq_getElem _ _ (by simp [hlen]; omega), List.getElem_map, List.getElem_drop,
      List.getD_eq_getElem _ _ (by simp [hlen]; omega), List.getElem_append_left (by omega)]
    simp only [Nat.add_comm 1, hist.1]
  rw [dispatch_tables _ _ _ _ _ ht rsp cpl software v hv, htop]

theorem boxes_map (ps : List ℕ) (h : ps.length = 11) :
    (exceptionBoxes ps).map Allocation.ptr = ps := by
  match ps, h with
  | [_,_,_,_,_,_,_,_,_,_,_], _ => rfl

omit s bs in
theorem respects_run (hrs : rs.Pairwise Apart) (ps : List ℕ) (s1 : Client) (bs1 : List Block)
    (hi1 : Inv rs s1 bs1) (hlive : ∀ a ∈ exceptionBoxes ps, a ∈ s1.live) (later : List Op)
    (fuel : ℕ) (hf : bs1.length+2*later.length ≤ fuel) (hr : Respects fuel ps s1 later) :
    ∃ s2 bs2, runFrom fuel s1 later = .ok s2 ∧ Inv rs s2 bs2 ∧
      bs2.length ≤ bs1.length+2*later.length ∧ (∀ a ∈ exceptionBoxes ps, a ∈ s2.live) ∧
      ∀ a ∈ (exceptionBoxes ps).drop 8, ∀ x ∈ userBytes a,
        s2.heap.memory x = s1.heap.memory x := by
  obtain ⟨htables,hstacks⟩ := hr
  obtain ⟨s2,bs2,hrun,hi2,hlen,hkept,hsame⟩ := run_keeps_bytes rs hrs later s1 bs1 hi1 fuel hf _
    (fun a ha => hlive a (List.mem_of_mem_drop ha)) htables
  refine ⟨s2,bs2,hrun,hi2,hlen,?_,hsame⟩
  intro a ha
  rw [← List.take_append_drop 8 (exceptionBoxes _)] at ha
  rcases List.mem_append.mp ha with ha | ha
  · exact run_keeps_live fuel later s1 s2 hrun a (hlive a (List.mem_of_mem_take ha)) (hstacks a ha)
  · exact hkept a ha

section Ready
variable (entry : EntryPoints) (ps : List ℕ) (bs' : List Block) (k : Kernel)
  (h : Ready rs s bs entry ps bs' k)
include h

theorem ready_live : k.client.live = (exceptionBoxes ps).reverse++s.live := by
  obtain ⟨sps,tss,gdt,idt,hsps,rfl,hst,-⟩ := h.boxes
  rw [hst.live, finalBoxes_map entry sps tss gdt idt hsps]

theorem ready_blocks : bs'.length ≤ bs.length+22 := by
  obtain ⟨sps,tss,gdt,idt,hsps,rfl,hst,-⟩ := h.boxes
  have hblocks := hst.blocks
  have hfew : (finalBoxes entry sps tss gdt idt).length = 11 := by
    simp [finalBoxes, tssBoxes, hsps]
  omega

/-- The tables are found in every state that leaves their bytes alone. -/
theorem ready_vectored (hb : ∀ r ∈ rs, r.2 < 2^64) (s2 : Client)
    (hlive : ∀ a ∈ exceptionBoxes ps, a ∈ s2.live)
    (hsame : ∀ a ∈ (exceptionBoxes ps).drop 8, ∀ x ∈ userBytes a,
      s2.heap.memory x = k.memory x) : Vectored entry ps k.cpu s2 := by
  have hl := ready_live rs s bs entry ps bs' k h
  obtain ⟨sps,tss,gdt,idt,hsps,rfl,hst,hidtr,hgdtr,htr⟩ := h.boxes
  have hd := hst.inv.distinct
  rw [hl, List.map_append, List.map_reverse, boxes_map _ (by simp [hsps])] at hd
  apply tables_vectored entry sps tss gdt idt _ hsps k.cpu s2 (ready_tables rs s bs hb entry
    sps tss gdt idt hsps k.client bs' hst k.cpu hidtr hgdtr htr _ ?_)
    (List.nodup_reverse.mp (List.nodup_append.mp hd).1) hlive
  intro b hbm
  obtain ⟨hle,hold⟩ := hst.holds b (List.mem_of_mem_take hbm)
  rw [← finalTables_map entry sps tss gdt idt hsps] at hsame
  refine (peeks_congr _ _ _ _ ?_).trans hold
  intro x h1 h2
  exact hsame b.1 (List.mem_map_of_mem (List.mem_reverse.mpr hbm)) x ⟨h1,by omega⟩

end Ready

/-- What `init_exceptions` does to a heap, and what is left of it later. -/
theorem exceptions_run (hi : Inv rs s bs) (hrs : rs.Pairwise Apart) (hb : ∀ r ∈ rs, r.2 < 2^64)
    (entry : EntryPoints) (cpu : Cpu) (later : List Op) (fuel : ℕ)
    (hf : bs.length+22+2*later.length ≤ fuel) :
    (fits exceptionLayouts bs = none → initExceptions fuel entry ⟨s,cpu⟩ = .error .outOfMemory) ∧
    ∀ ps bs', fits exceptionLayouts bs = some (ps,bs') →
      ∃ k, initExceptions fuel entry ⟨s,cpu⟩ = .ok k ∧ Inv rs k.client bs' ∧
        Ready rs s bs entry ps bs' k ∧ Vectored entry ps k.cpu k.client ∧
        (Respects fuel ps k.client later → ∃ s2 bs2, runFrom fuel k.client later = .ok s2 ∧
          Inv rs s2 bs2 ∧ bs2.length ≤ bs'.length+2*later.length ∧
          (∀ a ∈ exceptionBoxes ps, a ∈ s2.live) ∧
          (∀ a ∈ (exceptionBoxes ps).drop 8, ∀ x ∈ userBytes a,
            s2.heap.memory x = k.memory x) ∧ Vectored entry ps k.cpu s2) := by
  obtain ⟨hfull,hroom⟩ := exception_requests rs s bs hi hrs hb entry cpu fuel (by omega)
  refine ⟨hfull,?_⟩
  intro ps bs' hfit
  obtain ⟨k,hk,hready⟩ := hroom ps bs' hfit
  have hlen := ready_blocks rs s bs entry ps bs' k hready
  have hlive : ∀ a ∈ exceptionBoxes ps, a ∈ k.client.live := by
    intro a ha
    rw [ready_live rs s bs entry ps bs' k hready]
    exact List.mem_append_left _ (List.mem_reverse.mpr ha)
  have hi' : Inv rs k.client bs' := by
    obtain ⟨_,_,_,_,-,-,hst,-⟩ := hready.boxes
    exact hst.inv
  refine ⟨k,hk,hi',hready,ready_vectored rs s bs entry ps bs' k hready hb k.client hlive
    (fun _ _ _ _ => rfl),?_⟩
  intro hr
  obtain ⟨s2,bs2,hrun,hi2,hlen2,hlive2,hsame⟩ := respects_run rs hrs ps k.client bs' hi' hlive
    later fuel (by omega) hr
  exact ⟨s2,bs2,hrun,hi2,hlen2,hlive2,hsame,
    ready_vectored rs s bs entry ps bs' k hready hb s2 hlive2 hsame⟩

end Build

/-- In any reachable state of the heap `init_exceptions` needs room for its
eleven boxes only. Then the segment registers are loaded, every vector is
delivered on the stack meant for it, and this stays so whatever others do to
the heap and the stacks. -/
theorem exceptions_on_heap (map : MemoryMapHolder) (hmap : UefiContract map)
    (hconv : ConventionalContract (descriptors map)) (memory : HeaderMemory) (ops later : List Op)
    (entry : EntryPoints) (cpu : Cpu) (fuel : ℕ)
    (hf : (descriptors map).length+2*(ops.length+later.length)+40 < fuel) :
    ∃ s bs, run fuel map memory ops = .ok s ∧ Chain s.heap.memory s.heap.firstHeader bs ∧
      (fits exceptionLayouts bs = none →
        initExceptions fuel entry ⟨s,cpu⟩ = .error .outOfMemory) ∧
      ∀ ps bs', fits exceptionLayouts bs = some (ps,bs') →
        ∃ k, initExceptions fuel entry ⟨s,cpu⟩ = .ok k ∧ Safe (descriptors map) k.client bs' ∧
          k.client.live = (exceptionBoxes ps).reverse++s.live ∧
          (∀ a ∈ s.live, ∀ x ∈ userBytes a, k.memory x = s.heap.memory x) ∧
          k.cpu.cs = kernelCs ∧ k.cpu.ss = kernelDs ∧ (∀ r, k.cpu.data r = kernelDs) ∧
          Vectored entry ps k.cpu k.client ∧
          (Respects fuel ps k.client later →
            ∃ s2, runFrom fuel k.client later = .ok s2 ∧ Vectored entry ps k.cpu s2) := by
  have hap := registered_apart _ hconv
  have hb : ∀ r ∈ registeredRegions (descriptors map), r.2 < 2^64 :=
    fun r hr => (registered_ok _ hconv r hr).1.bound
  obtain ⟨s,bs,hrun,hi,hlen⟩ := run_inv map _ (contract_shows map hmap) hconv memory ops fuel
    (by omega)
  obtain ⟨hfull,hroom⟩ := exceptions_run _ s bs hi hap hb entry cpu later fuel (by omega)
  refine ⟨s,bs,hrun,hi.chain,hfull,?_⟩
  intro ps bs' hfit
  obtain ⟨k,hk,hi',hready,hvec,hlater⟩ := hroom ps bs' hfit
  have hkept : ∀ a ∈ s.live, ∀ x ∈ userBytes a, k.memory x = s.heap.memory x := by
    obtain ⟨_,_,_,_,-,-,hst,-⟩ := hready.boxes
    exact hst.kept
  refine ⟨k,hk,inv_safe _ hconv k.client bs' hi',ready_live _ s bs entry ps bs' k hready,hkept,
    hready.cs,hready.ss,hready.data,hvec,?_⟩
  intro hr
  obtain ⟨s2,-,hrun2,-,-,-,-,hvec2⟩ := hlater hr
  exact ⟨s2,hrun2,hvec2⟩

def sampleEntries : EntryPoints := 
  ⟨0x1000,0x1100,0x1200,0x1300,0x1400,0x1500,0x1600,by decide⟩

def sampleCpu : Cpu := ⟨⟨0,0⟩,⟨0,0⟩,⟨0,0,0⟩,0,0,fun _ => 0⟩

theorem exceptions_on_heap_wide :
    ∃ s bs, run (2^42) wideMap (fun _ => .raw 0) [.alloc (layout 100 3 (by decide))] = .ok s ∧
      Chain s.heap.memory s.heap.firstHeader bs ∧
      (fits exceptionLayouts bs = none →
        initExceptions (2^42) sampleEntries ⟨s,sampleCpu⟩ = .error .outOfMemory) ∧
      ∀ ps bs', fits exceptionLayouts bs = some (ps,bs') →
        ∃ k, initExceptions (2^42) sampleEntries ⟨s,sampleCpu⟩ = .ok k ∧
          Safe (descriptors wideMap) k.client bs' ∧
          k.client.live = (exceptionBoxes ps).reverse++s.live ∧
          (∀ a ∈ s.live, ∀ x ∈ userBytes a, k.memory x = s.heap.memory x) ∧
          k.cpu.cs = kernelCs ∧ k.cpu.ss = kernelDs ∧ (∀ r, k.cpu.data r = kernelDs) ∧
          Vectored sampleEntries ps k.cpu k.client ∧
          (Respects (2^42) ps k.client [.poke 3 8 1,.dealloc 11] →
            ∃ s2, runFrom (2^42) k.client [.poke 3 8 1,.dealloc 11] = .ok s2 ∧
              Vectored sampleEntries ps k.cpu s2) :=
  exceptions_on_heap wideMap wideMap_contract wideMap_conventional _ _ _ _ _ (2^42)
    (by rw [wideMap_descriptors]; decide)

-- There is room for the boxes in a tebibyte, and none in 8 KiB.
example : (fits exceptionLayouts [freeBlock (0x200000000,0x10200000000)]).isSome ∧
    fits exceptionLayouts [freeBlock (0x1000,0x3000)] = none := by decide

end Wasabi.X86.Exceptions
