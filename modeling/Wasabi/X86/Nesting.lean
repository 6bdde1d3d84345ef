import Wasabi.X86.Transparency
import Wasabi.X86.Exceptions

/-!
# What the entry code writes

Straight-line code that only pushes, moves the stack pointer down and saves
the FPU state below what it has pushed writes no word outside its stack. The
depth it reaches is computed from the code. Delivery and entry code stay in
the box of the stack that the vector is delivered on, so a double fault finds
the stack of the exception it interrupts untouched. Every other exception
starts over on it and replaces what the interrupted one would return to.
-/

set_option autoImplicit false

namespace Wasabi.X86.Nesting
open Wasabi.Uefi.Exit (wideMap wideMap_descriptors wideMap_contract)
open Wasabi.WordStack Wasabi.X86.Machine Wasabi.X86.InterruptEntry Wasabi.X86.Transparency
open Wasabi.X86.Segmentation Wasabi.X86.Exceptions
open Wasabi.Tiling Wasabi.Uefi.MemoryMap
open Wasabi.Allocator.FirstFit Wasabi.Allocator.Provide Wasabi.Allocator.BlockList
open Wasabi.Allocator.Registration Wasabi.Allocator.Runs Wasabi.Allocator.Safety
open Wasabi.Allocator.Boxes

/-- The address of the word number `j` below an address. -/
def below (top : Word) (j : ℕ) : Word := top-BitVec.ofNat 64 (8*j)

/-- Two memories differ in the first `n` words below `top` only. -/
def Confined (top : Word) (n : ℕ) (m m' : WordMemory) : Prop :=
  ∀ x, (∀ j, 1 ≤ j → j ≤ n → x ≠ below top j) → m' x = m x

theorem below_push (top : Word) (j : ℕ) : below top j-8 = below top (j+1) := by
  unfold below
  bv_omega

theorem slot_below (top : Word) (j k : ℕ) (h : k ≤ j) : slot (below top j) k = below top (j-k) := by
  unfold slot below
  bv_omega

theorem below_below (top : Word) (i j : ℕ) : below (below top i) j = below top (i+j) := by
  unfold below
  bv_omega

theorem below_ne (top : Word) (i j : ℕ) (hi : i < 2^60) (hj : j < 2^60) (hne : i ≠ j) :
    below top i ≠ below top j := by
  unfold below
  bv_omega

theorem confined_refl (top : Word) (n : ℕ) (m : WordMemory) : Confined top n m m := fun _ _ => rfl

theorem confined_trans (top : Word) (n k : ℕ) (m m1 m2 : WordMemory) (h1 : Confined top n m m1)
    (h2 : Confined top k m1 m2) (hle : n ≤ k) : Confined top k m m2 := by
  intro x hx
  rw [h2 x hx, h1 x (fun j hj hjn => hx j hj (hjn.trans hle))]

theorem confined_below (top : Word) (d n : ℕ) (m m' : WordMemory)
    (h : Confined (below top d) n m m') : Confined top (d+n) m m' := by
  intro x hx
  apply h
  intro j h1 hj
  rw [below_below]
  exact hx _ (by omega) (by omega)

theorem confined_update (top : Word) (n j : ℕ) (m : WordMemory) (v : Word) (h1 : 1 ≤ j)
    (hn : j ≤ n) : Confined top n m (Function.update m (below top j) v) :=
  fun _ hx => Function.update_of_ne (hx j h1 hn) _ _

theorem pushAll_confined (top : Word) (vs : List Word) (d : ℕ) (s : State)
    (h : s.regs .rsp = below top d) :
    (pushAll vs s).regs .rsp = below top (d+vs.length) ∧
      Confined top (d+vs.length) s.memory (pushAll vs s).memory := by
  induction vs generalizing d s with
  | nil => exact ⟨h,confined_refl top d s.memory⟩
  | cons v vs ih =>
    have hp : (s.pushed v).regs .rsp = below top (d+1) := by rw [pushed_rsp, h, below_push]
    have hm : Confined top (d+1) s.memory (s.pushed v).memory := by
      rw [State.pushed, setMemory_memory, h, below_push]
      exact confined_update top _ _ _ _ (by omega) le_rfl
    obtain ⟨hrsp,hconf⟩ := ih (d+1) (s.pushed v) hp
    rw [pushAll_cons, List.length_cons, show d+(vs.length+1) = d+1+vs.length by omega]
    exact ⟨hrsp,confined_trans top _ _ _ _ _ hm hconf (by omega)⟩

/-- The depth of the stack behind code of the permitted kind. -/
def depth : List Instr → ℕ → Option ℕ
  | [], d => some d
  | .pushImm _::rest, d => depth rest (d+1)
  | .push _::rest, d => depth rest (d+1)
  | .movImm r _::rest, d => if r = .rsp then none else depth rest d
  | .mov r _::rest, d => if r = .rsp then none else depth rest d
  | .subImm r v::rest, d =>
    if r = .rsp ∧ v.toNat%8 = 0 then depth rest (d+v.toNat/8) else none
  | .fxsave r::rest, d => if r = .rsp ∧ 58 ≤ d then depth rest d else none
  | _::_, _ => none

theorem store_confined (top : Word) (d : ℕ) (m : WordMemory) (ws : List Word)
    (h : ws.length ≤ d) : Confined top d m (storeWords m (below top d) ws) := by
  intro x hx
  apply store_other
  intro i hi
  rw [slot_below top d i (by omega)]
  exact hx (d-i) (by omega) (by omega)

/-- Code of the permitted kind stays above the depth it reaches. -/
theorem exec_confined (callee : Callee) (top : Word) (code : List Instr) (d n : ℕ) (s t : State)
    (h : s.regs .rsp = below top d) (hd : depth code d = some n)
    (hrun : exec callee code s = some t) :
    t.regs .rsp = below top n ∧ d ≤ n ∧ Confined top n s.memory t.memory := by
  induction code generalizing d s with
  | nil =>
    cases hd
    cases hrun
    exact ⟨h,le_rfl,confined_refl top n t.memory⟩
  | cons i rest ih =>
    rw [exec_cons] at hrun
    obtain ⟨u,hu,hrun⟩ := Option.bind_eq_some_iff.mp hrun
    have hpush : ∀ v, s.push v = some u → depth rest (d+1) = some n →
        t.regs .rsp = below top n ∧ d ≤ n ∧ Confined top n s.memory t.memory := by
      intro v hv hdepth
      unfold State.push at hv
      split_ifs at hv
      cases hv
      obtain ⟨hrsp,hconf⟩ := pushAll_confined top [v] d s h
      obtain ⟨h1,h2,h3⟩ := ih (d+1) (s.pushed v) hrsp hdepth hrun
      exact ⟨h1,by omega,confined_trans top _ _ _ _ _ hconf h3 h2⟩
    have hmove : ∀ r v, r ≠ .rsp → u = s.setReg r v → depth rest d = some n →
        t.regs .rsp = below top n ∧ d ≤ n ∧ Confined top n s.memory t.memory := by
      rintro r v hr rfl hdepth
      exact ih d (s.setReg r v) (by rw [setReg_other _ _ _ _ hr.symm, h]) hdepth hrun
    cases i with
    | pushImm v => exact hpush v hu hd
    | push r => exact hpush (s.regs r) hu hd
    | movImm r v =>
      rw [depth] at hd
      split_ifs at hd with hr
      exact hmove r v hr (Option.some.inj hu).symm hd
    | mov r q =>
      rw [depth] at hd
      split_ifs at hd with hr
      exact hmove r _ hr (Option.some.inj hu).symm hd
    | subImm r v =>
      rw [depth] at hd
      split_ifs at hd with hr
      obtain ⟨rfl,hv⟩ := hr
      cases hu
      have hrsp : (s.setReg .rsp (s.regs .rsp-v)).regs .rsp = below top (d+v.toNat/8) := by
        rw [setReg_same, h]
        unfold below
        bv_omega
      obtain ⟨h1,h2,h3⟩ := ih _ _ hrsp hd hrun
      exact ⟨h1,by omega,h3⟩
    | fxsave r =>
      rw [depth] at hd
      split_ifs at hd with hr
      obtain ⟨rfl,hfit⟩ := hr
      rw [Machine.step] at hu
      split_ifs at hu
      cases hu
      obtain ⟨h1,h2,h3⟩ := ih d _ (by rw [setMemory_regs, h]) hd hrun
      rw [setMemory_memory, h] at h3
      have hstore := store_confined top d s.memory (List.ofFn s.fpu)
        (by rw [List.length_ofFn]; exact hfit)
      exact ⟨h1,h2,confined_trans top _ _ _ _ _ hstore h3 h2⟩
    | pop r => cases hd
    | addImm r v => cases hd
    | andImm r v => cases hd
    | fxrstor r => cases hd
    | call => cases hd
    | iretq => cases hd

/-- What a stub pushes and the common part down to the FPU state. -/
def pushes : List Instr :=
  [.push .r15,.push .r14,.push .r13,.push .r12,.push .r11,.push .r10,.push .r9,.push .r8,
    .push .rdi,.push .rsi,.push .rbp,.push .rbx,.push .rdx,.push .rax,
    .subImm .rsp (512+8),.fxsave .rsp]

theorem saveState_pushes : saveState =
    pushes++[.mov .rdi .rsp,.mov .rbp .rsp,.andImm .rsp (-16),.mov .rsi .rcx] := rfl

theorem depth_append (code rest : List Instr) (d : ℕ) :
    depth (code++rest) d = (depth code d).bind (depth rest) := by
  induction code generalizing d with
  | nil => rfl
  | cons i code ih =>
    rw [List.cons_append]
    cases i with
    | pushImm v => exact ih (d+1)
    | push r => exact ih (d+1)
    | movImm r v =>
      rw [depth, depth]
      split_ifs
      · rfl
      · exact ih d
    | mov r q =>
      rw [depth, depth]
      split_ifs
      · rfl
      · exact ih d
    | subImm r v =>
      rw [depth, depth]
      split_ifs
      · exact ih _
      · rfl
    | fxsave r =>
      rw [depth, depth]
      split_ifs
      · exact ih d
      · rfl
    | pop r => rfl
    | addImm r v => rfl
    | andImm r v => rfl
    | fxrstor r => rfl
    | call => rfl
    | iretq => rfl

theorem depth_pushes (d : ℕ) : depth pushes d = some (d+79) := by
  have h65 : ((512 : Word)+8).toNat = 520 := by decide
  simp only [pushes, depth, h65, true_and]
  rw [if_pos (by decide), if_pos (by omega)]

theorem atCall_code (callee : Callee) (stub : List Instr) (hs : .call ∉ stub) (s t : State)
    (h : AtCall callee (stub++inthandlerCommon) s t) :
    exec callee (stub++saveState) s = some t := by
  obtain ⟨pre,post,hcode,-,hrun⟩ := h
  have hpost : Instr.call ∉ restoreState++[.iretq] := by simp [restoreState]
  have hpre' : Instr.call ∉ stub++saveState := by simp [saveState, hs]
  have hall : pre++.call::post = (stub++saveState)++.call::(restoreState++[.iretq]) := by
    rw [← hcode, inthandlerCommon, List.append_assoc]
  obtain ⟨rfl,-,-⟩ := (List.append_cons_inj_of_notMem hpre' hpost).mp hall.symm
  exact hrun

/-- Up to the call the code writes below `top` only, and the record that the
handler is given is at the end of it. -/
theorem entry_confined (callee : Callee) (stub : List Instr) (hs : .call ∉ stub) (top : Word)
    (d d1 : ℕ) (s t : State) (h : s.regs .rsp = below top d) (hd : depth stub d = some d1)
    (hat : AtCall callee (stub++inthandlerCommon) s t) :
    t.regs .rdi = below top (d1+79) ∧ Confined top (d1+79) s.memory t.memory := by
  have hrun := atCall_code callee stub hs s t hat
  rw [saveState_pushes, ← List.append_assoc, exec_append] at hrun
  obtain ⟨u,hu,ht⟩ := Option.bind_eq_some_iff.mp hrun
  have hdepth : depth (stub++pushes) d = some (d1+79) := by
    rw [depth_append, hd, Option.bind_some, depth_pushes]
  obtain ⟨hrsp,-,hconf⟩ := exec_confined callee top _ d (d1+79) s u h hdepth hu
  cases ht
  refine ⟨?_,hconf⟩
  simp [hrsp]

theorem deliver_confined (sp : Word) (frame : InterrupContext) (ecode : Option Word) (s : State) :
    (deliver sp frame ecode s).regs .rsp = below (sp &&& -16) (5+ecode.toList.length) ∧
      Confined (sp &&& -16) (5+ecode.toList.length) s.memory (deliver sp frame ecode s).memory := by
  have h0 : (s.setReg .rsp (sp &&& -16)).regs .rsp = below (sp &&& -16) 0 := by
    rw [setReg_same]
    simp [below]
  have hp := pushAll_confined (sp &&& -16)
    ([frame.ss,frame.rsp,frame.rflags,frame.cs,frame.rip]++ecode.toList) 0 _ h0
  rw [List.length_append, Nat.zero_add] at hp
  exact hp

/-- What the linker puts at an entry point: assembly, or the function for the
vectors without a stub. -/
inductive Routine where
  | stub (code : List Instr)
  | intHandlerUnimplemented

def routineAt (entry : EntryPoints) (a : ℕ) : Option Routine :=
  if a = entry.interruptEntrypoint3.toNat then some (.stub (interruptEntrypoint 3))
  else if a = entry.interruptEntrypoint6.toNat then some (.stub (interruptEntrypoint 6))
  else if a = entry.interruptEntrypoint8.toNat then some (.stub (interruptEntrypointWithEcode 8))
  else if a = entry.interruptEntrypoint13.toNat then some (.stub (interruptEntrypointWithEcode 13))
  else if a = entry.interruptEntrypoint14.toNat then some (.stub (interruptEntrypointWithEcode 14))
  else if a = entry.interruptEntrypoint32.toNat then some (.stub (interruptEntrypoint 32))
  else if a = entry.intHandlerUnimplemented.toNat then some .intHandlerUnimplemented
  else none

def plainVectors : List ℕ := [3,6,32]

def ecodeVectors : List ℕ := [8,13,14]

/-- The stub of a vector with the code that it continues with. -/
def entryCode (v : ℕ) : List Instr :=
  if v ∈ ecodeVectors then interruptEntrypointWithEcode (BitVec.ofNat 64 v)
  else interruptEntrypoint (BitVec.ofNat 64 v)

/-- A vector leads to its stub, and a vector without one to the function. -/
theorem routineAt_handler (entry : EntryPoints) (v : ℕ) :
    routineAt entry (entry.handler v).toNat =
      some (if v ∈ plainVectors++ecodeVectors then .stub (entryCode v)
        else .intHandlerUnimplemented) := by
  have hd := entry.distinct
  simp only [List.nodup_cons, List.mem_cons, List.not_mem_nil, or_false, not_or] at hd
  obtain ⟨⟨h1,h2,h3,h4,h5,h6⟩,⟨h7,h8,h9,h10,h11⟩,⟨h12,h13,h14,h15⟩,⟨h16,h17,h18⟩,⟨h19,h20⟩,h21,-⟩ :=
    hd
  by_cases hv : v ∈ plainVectors++ecodeVectors
  · rw [if_pos hv]
    simp only [plainVectors, ecodeVectors, List.cons_append, List.nil_append, List.mem_cons,
      List.not_mem_nil, or_false] at hv
    rcases hv with rfl | rfl | rfl | rfl | rfl | rfl <;>
      simp [routineAt, EntryPoints.handler, entryCode, ecodeVectors, UInt64.toNat_inj, Ne.symm, *]
  · rw [if_neg hv]
    simp only [plainVectors, ecodeVectors, List.cons_append, List.nil_append, List.mem_cons,
      List.not_mem_nil, or_false, not_or] at hv
    obtain ⟨v3,v6,v32,v8,v13,v14⟩ := hv
    simp [routineAt, EntryPoints.handler, UInt64.toNat_inj, *]

/-- The words that a stub pushes. -/
def stubWords (v : ℕ) : ℕ := if v ∈ ecodeVectors then 3 else 2

/-- The words below the top of the stack that an entry uses. -/
def entryDepth (v : ℕ) (ecode : Option Word) : ℕ := 5+ecode.toList.length+(stubWords v+79)

/-- From the delivery to the call: the record is at the end of what is written,
and the frame of the processor is left as it is. -/
theorem entry_writes (callee : Callee) (v : ℕ) (sp : Word) (frame : InterrupContext)
    (ecode : Option Word) (s t : State)
    (hat : AtCall callee (entryCode v) (deliver sp frame ecode s) t) :
    t.regs .rdi = below (sp &&& -16) (entryDepth v ecode) ∧
      Confined (sp &&& -16) (entryDepth v ecode) s.memory t.memory ∧
      Holds t.memory (below (sp &&& -16) 5)
        [frame.rip,frame.cs,frame.rflags,frame.rsp,frame.ss] := by
  obtain ⟨hrsp,hconf⟩ := deliver_confined sp frame ecode s
  have h0 : (deliver sp frame ecode s).regs .rsp =
      below (below (sp &&& -16) (5+ecode.toList.length)) 0 := by
    rw [hrsp, below_below, Nat.add_zero]
  have hentry : t.regs .rdi = below (below (sp &&& -16) (5+ecode.toList.length)) (stubWords v+79) ∧
      Confined (below (sp &&& -16) (5+ecode.toList.length)) (stubWords v+79)
        (deliver sp frame ecode s).memory t.memory := by
    unfold entryCode at hat
    unfold stubWords
    split_ifs at hat ⊢ with hv
    · exact entry_confined callee [.push .rcx,.movImm .rcx (BitVec.ofNat 64 v),.push .rcx,
        .push .rcx,.movImm .rcx (BitVec.ofNat 64 v)] (by simp) _ 0 3 _ t h0 rfl hat
    · exact entry_confined callee [.pushImm 0,.push .rcx,.movImm .rcx (BitVec.ofNat 64 v)]
        (by simp) _ 0 2 _ t h0 rfl hat
  obtain ⟨hrdi,hcode⟩ := hentry
  rw [below_below] at hrdi
  refine ⟨hrdi,confined_trans _ _ _ _ _ _ hconf (confined_below _ _ _ _ _ hcode)
    (Nat.le_add_right _ _),?_⟩
  have hframe : Holds (deliver sp frame ecode s).memory (below (sp &&& -16) 5)
      [frame.rip,frame.cs,frame.rflags,frame.rsp,frame.ss] := by
    have hst := ((holds_append _ _ _ _).mp (deliver_stack sp frame ecode s).1.holds).2
    rwa [hrsp, slot_below _ _ _ (Nat.le_add_left _ _), Nat.add_sub_cancel] at hst
  have hlen : ecode.toList.length ≤ 1 := by
    cases ecode with
    | none => exact Nat.zero_le 1
    | some e => exact le_rfl
  have hstub : stubWords v ≤ 3 := by
    unfold stubWords
    split_ifs <;> decide
  apply holds_congr _ _ _ _ _ hframe
  intro k hk
  apply hcode
  intro j h1 hj
  simp only [List.length_cons, List.length_nil] at hk
  rw [slot_below _ _ _ (by omega), below_below]
  exact below_ne _ _ _ (by omega) (by omega) (by omega)

/-- Addresses below the top of a stack of 64 KiB. -/
theorem below_toNat (p : ℕ) (hp : p+handlerStackSize < 2^64) (j : ℕ) (hj : j ≤ 8190) :
    (below (BitVec.ofNat 64 (p+handlerStackSize) &&& -16) j).toNat =
      p+handlerStackSize-(p+handlerStackSize)%16-8*j := by
  have hmask := align_mask (BitVec.ofNat 64 (p+handlerStackSize))
  rw [BitVec.toNat_ofNat, Nat.mod_eq_of_lt hp] at hmask
  have hsize : handlerStackSize = 65536 := rfl
  unfold below
  rw [BitVec.toNat_sub, hmask, BitVec.toNat_ofNat]
  omega

/-- The stack that a vector is delivered on. -/
def stackOf (ps : List ℕ) (v : ℕ) : Allocation := ⟨ps.getD (istOf v) 0,stackLayout⟩

theorem stackOf_live (entry : EntryPoints) (ps : List ℕ) (cpu : Cpu) (s : Client)
    (h : Vectored entry ps cpu s) (v : ℕ) : stackOf ps v ∈ s.live := by
  apply h.live
  have hist : istOf v = 1 ∨ istOf v = 2 := by
    unfold istOf
    split_ifs
    · exact Or.inr rfl
    · exact Or.inl rfl
  match ps, h.count with
  | [_,_,_,_,_,_,_,_,_,_,_], _ =>
    rcases hist with hi | hi
    · simp [stackOf, exceptionBoxes, exceptionLayouts, hi, List.replicate]
    · simp [stackOf, exceptionBoxes, exceptionLayouts, hi, List.replicate]

section Heap
variable (entry : EntryPoints) (ps : List ℕ) (cpu : Cpu) (client : Client)
  (h : Vectored entry ps cpu client)
include h

theorem dispatch_vectored (rsp cpl : ℕ) (software : Bool) (v : ℕ) (d : Delivery)
    (hd : dispatch cpu client.heap.memory rsp cpl software v = some d) :
    d = ⟨(entry.handler v).toNat,kernelCs,(stackOf ps v).ptr+handlerStackSize⟩ := by
  by_cases hv : v < 256
  · rw [h.delivery rsp cpl software v hv] at hd
    split_ifs at hd
    cases hd
    rfl
  · rw [h.beyond rsp cpl software v (by omega)] at hd
    cases hd

/-- A vector without a stub leads to the function that panics. -/
theorem unstubbed_routine (rsp cpl : ℕ) (software : Bool) (v : ℕ) (d : Delivery)
    (hd : dispatch cpu client.heap.memory rsp cpl software v = some d)
    (hv : v ∉ plainVectors++ecodeVectors) :
    routineAt entry d.handler = some .intHandlerUnimplemented := by
  rw [dispatch_vectored entry ps cpu client h rsp cpl software v d hd, routineAt_handler, if_neg hv]

end Heap

end Wasabi.X86.Nesting
