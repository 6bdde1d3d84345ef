import Wasabi.X86.Machine

/-!
# Entering and leaving an interrupt

The stubs of the two macros differ in what they put where the error code
belongs. The common part saves the registers in the layout of `InterrupInfo`,
calls the handler on an aligned stack and undoes everything. The stub for
vectors with an error code pushes two words too many.
-/

set_option autoImplicit false

namespace Wasabi.X86.InterruptEntry
open Wasabi.WordStack Wasabi.X86.Machine

structure GeneralRegisterContext where
  rax : Word
  rdx : Word
  rbx : Word
  rbp : Word
  rsi : Word
  rdi : Word
  r8 : Word
  r9 : Word
  r10 : Word
  r11 : Word
  r12 : Word
  r13 : Word
  r14 : Word
  r15 : Word
  rcx : Word
  deriving DecidableEq

structure InterrupInfo where
  fpuContext : Fin 64 → Word
  dummy : Word
  greg : GeneralRegisterContext
  errorCode : Word
  ctx : InterrupContext

/-- The `repr(C)` layout at an address, in words. -/
def readInfo (m : WordMemory) (a : Word) : InterrupInfo where
  fpuContext := fun k => m (slot a k)
  dummy := m (slot a 64)
  greg := ⟨m (slot a 65),m (slot a 66),m (slot a 67),m (slot a 68),m (slot a 69),m (slot a 70),
    m (slot a 71),m (slot a 72),m (slot a 73),m (slot a 74),m (slot a 75),m (slot a 76),
    m (slot a 77),m (slot a 78),m (slot a 79)⟩
  errorCode := m (slot a 80)
  ctx := ⟨m (slot a 81),m (slot a 82),m (slot a 83),m (slot a 84),m (slot a 85)⟩

def infoWords : ℕ := 86

def generalRegisters (regs : Reg → Word) : GeneralRegisterContext :=
  ⟨regs .rax,regs .rdx,regs .rbx,regs .rbp,regs .rsi,regs .rdi,regs .r8,regs .r9,regs .r10,
    regs .r11,regs .r12,regs .r13,regs .r14,regs .r15,regs .rcx⟩

/-- `inthandler_common` up to the call. -/
def saveState : List Instr :=
  [.push .r15,.push .r14,.push .r13,.push .r12,.push .r11,.push .r10,.push .r9,.push .r8,
    .push .rdi,.push .rsi,.push .rbp,.push .rbx,.push .rdx,.push .rax,
    .subImm .rsp (512+8),.fxsave .rsp,.mov .rdi .rsp,.mov .rbp .rsp,.andImm .rsp (-16),
    .mov .rsi .rcx]

/-- `inthandler_common` from the return of the handler to `iretq`. -/
def restoreState : List Instr :=
  [.mov .rsp .rbp,.fxrstor .rsp,.addImm .rsp (512+8),
    .pop .rax,.pop .rdx,.pop .rbx,.pop .rbp,.pop .rsi,.pop .rdi,.pop .r8,.pop .r9,.pop .r10,
    .pop .r11,.pop .r12,.pop .r13,.pop .r14,.pop .r15,
    .pop .rcx,.addImm .rsp 8]

def inthandlerCommon : List Instr := saveState++(.call::(restoreState++[.iretq]))

/-- The jump at the end of a stub continues with the common part. -/
def interruptEntrypoint (index : Word) : List Instr :=
  [.pushImm 0,.push .rcx,.movImm .rcx index]++inthandlerCommon

def interruptEntrypointWithEcode (index : Word) : List Instr :=
  [.push .rcx,.movImm .rcx index,.push .rcx,.push .rcx,.movImm .rcx index]++inthandlerCommon

/-- What the processor does before the first instruction of a stub. -/
def deliver (sp : Word) (frame : InterrupContext) (ecode : Option Word) (s : State) : State :=
  pushAll ([frame.ss,frame.rsp,frame.rflags,frame.cs,frame.rip]++ecode.toList)
    (s.setReg .rsp (sp &&& -16))

/-- The state in which the code is about to execute its first call. -/
def AtCall (callee : Callee) (code : List Instr) (s t : State) : Prop :=
  ∃ pre post, code = pre++(.call::post) ∧ .call ∉ pre ∧ exec callee pre s = some t

/-- The state in which the code is about to return from the interrupt. -/
def AtIretq (callee : Callee) (code : List Instr) (s t : State) : Prop :=
  ∃ pre, code = pre++[.iretq] ∧ exec callee pre s = some t

/-- The calling convention as far as the caller relies on it, for a handler
entered in the state `s`. The handler does not write the saved state it is
given. -/
structure SysVAt (callee : Callee) (s : State) : Prop where
  rsp : (callee.body s).regs .rsp = s.regs .rsp+8
  rbp : (callee.body s).regs .rbp = s.regs .rbp
  info : ∀ k < infoWords,
    (callee.body s).memory (slot (s.regs .rdi) k) = s.memory (slot (s.regs .rdi) k)

theorem slot_mod (a : Word) (n : ℕ) : (slot a n).toNat%16 = (a.toNat+8*n)%16 := by
  rw [slot, BitVec.toNat_add, BitVec.toNat_ofNat]
  omega

theorem deliver_stack (sp : Word) (frame : InterrupContext) (ecode : Option Word) (s : State) :
    Stack (deliver sp frame ecode s)
        (ecode.toList++[frame.rip,frame.cs,frame.rflags,frame.rsp,frame.ss]) ∧
      (∀ r, r ≠ .rsp → (deliver sp frame ecode s).regs r = s.regs r) ∧
      ((deliver sp frame ecode s).regs .rsp).toNat%16 = 8*(1-ecode.toList.length) ∧
      (deliver sp frame ecode s).fpu = s.fpu := by
  have hmask := align_mask sp
  have hst : Stack (s.setReg .rsp (sp &&& -16)) [] := by
    refine ⟨?_,trivial⟩
    rw [setReg_same, hmask]
    omega
  have hp := pushAll_stack ([frame.ss,frame.rsp,frame.rflags,frame.cs,frame.rip]++ecode.toList) [] _
    hst (by cases ecode <;> simp)
  have hrsp := congrArg (fun a : Word => a.toNat%16) (pushAll_rsp
    ([frame.ss,frame.rsp,frame.rflags,frame.cs,frame.rip]++ecode.toList)
    (s.setReg .rsp (sp &&& -16)))
  rw [List.append_nil, List.reverse_append] at hp
  simp only [slot_mod, setReg_same, hmask] at hrsp
  refine ⟨?_,?_,?_,pushAll_fpu _ _⟩
  · cases ecode with
    | none => exact hp
    | some e => exact hp
  · intro r hr
    rw [deliver, pushAll_other _ _ r hr, setReg_other _ _ _ _ hr]
  · unfold deliver
    cases ecode with
    | none =>
      simp only [Option.toList_none, List.append_nil, List.length_cons, List.length_nil] at hrsp ⊢
      omega
    | some e =>
      simp only [Option.toList_some, List.length_append, List.length_cons,
        List.length_nil] at hrsp ⊢
      omega

/-- Registers in the order in which `inthandler_common` pops them. -/
def popOrder : List Reg :=
  [.rax,.rdx,.rbx,.rbp,.rsi,.rdi,.r8,.r9,.r10,.r11,.r12,.r13,.r14,.r15]

theorem popOrder_length : popOrder.length = 14 := rfl

theorem save_registers (callee : Callee) (s : State) (ws : List Word) (h : Stack s ws)
    (hw : ws.length < 1000) :
    ∃ u, exec callee (popOrder.reverse.map Instr.push) s = some u ∧
      Stack u (popOrder.map s.regs++ws) ∧ slot (u.regs .rsp) 14 = s.regs .rsp ∧
      u.fpu = s.fpu ∧ u.regs .rcx = s.regs .rcx := by
  refine ⟨pushAll (popOrder.reverse.map s.regs) s,?_,?_,
    pushAll_rsp (popOrder.reverse.map s.regs) s,pushAll_fpu _ s,pushAll_other _ s .rcx (by decide)⟩
  · apply exec_pushes callee popOrder.reverse (by decide) ws s h
    rw [List.length_reverse, popOrder_length]
    omega
  · have hall := pushAll_stack (popOrder.reverse.map s.regs) ws s h
      (by rw [List.length_map, List.length_reverse, popOrder_length]; omega)
    rwa [List.map_reverse, List.reverse_reverse, ← List.map_reverse] at hall

/-- The FPU image goes below the stack, and the stack pointer stays there: it
was aligned before the alignment. -/
theorem save_fpu (callee : Callee) (u : State) (ws : List Word) (h : Stack u ws)
    (h16 : (u.regs .rsp).toNat%16 = 8) (hw : ws.length < 2000) :
    ∃ t, exec callee [.subImm .rsp (512+8),.fxsave .rsp,.mov .rdi .rsp,.mov .rbp .rsp,
        .andImm .rsp (-16),.mov .rsi .rcx] u = some t ∧
      slot (t.regs .rdi) 65 = u.regs .rsp ∧ t.regs .rbp = t.regs .rdi ∧
      t.regs .rsp = t.regs .rdi ∧ t.regs .rsi = u.regs .rcx ∧ 16 ∣ (t.regs .rdi).toNat ∧
      (∀ k : Fin 58, t.memory (slot (t.regs .rdi) k) = u.fpu k) ∧
      Holds t.memory (slot (t.regs .rdi) 65) ws := by
  obtain ⟨b,hbdef⟩ : ∃ b, b = u.regs .rsp-(512+8) := ⟨_,rfl⟩
  have hb : slot b 65 = u.regs .rsp := by
    rw [slot, hbdef]
    bv_omega
  have hmod : 16 ∣ b.toNat := by
    have hm := slot_mod b 65
    rw [hb, h16] at hm
    omega
  obtain ⟨mem,hmem⟩ : ∃ mem, mem = storeWords u.memory b (List.ofFn u.fpu) := ⟨_,rfl⟩
  obtain ⟨t,ht⟩ : ∃ t, t = (((((u.setReg .rsp b).setMemory mem).setReg .rdi b).setReg
    .rbp b).setReg .rsp b).setReg .rsi (u.regs .rcx) := ⟨_,rfl⟩
  have hrdi : t.regs .rdi = b := by simp [ht]
  have htmem : t.memory = mem := by simp [ht]
  refine ⟨t,?_,by rw [hrdi, hb],by simp [ht],by simp [ht],by simp [ht],by rw [hrdi]; exact hmod,
    ?_,?_⟩
  · simp only [exec_cons, step, Option.bind_some, setReg_same, ← hbdef, if_pos hmod, setReg_fpu,
      setReg_memory, ← hmem, setMemory_regs, setReg_other, ne_eq, reduceCtorEq, not_false_eq_true,
      align_mask_eq b hmod, ht]
    rfl
  · intro k
    have hlen : (List.ofFn u.fpu).length < 2^61 := by
      rw [List.length_ofFn]
      decide
    have hstore := (holds_slot mem b (List.ofFn u.fpu)).mp
      (hmem ▸ holds_store u.memory b (List.ofFn u.fpu) hlen) k
      (by rw [List.length_ofFn]; exact k.isLt)
    rw [hrdi, htmem, hstore]
    exact List.getElem_ofFn _
  · rw [hrdi, htmem, hmem]
    apply holds_below u.memory b (List.ofFn u.fpu) _ 65 (by rw [List.length_ofFn]; decide)
    · omega
    · rw [hb]
      exact h.holds

/-- The saved state at `rdi` continues with what the stub left on the stack. -/
theorem save_state (callee : Callee) (s : State) (ws : List Word) (h : Stack s ws)
    (h16 : (s.regs .rsp).toNat%16 = 8) (hw : ws.length < 1000) :
    ∃ t, exec callee saveState s = some t ∧ slot (t.regs .rdi) 79 = s.regs .rsp ∧
      t.regs .rbp = t.regs .rdi ∧ t.regs .rsp = t.regs .rdi ∧ t.regs .rsi = s.regs .rcx ∧
      16 ∣ (t.regs .rdi).toNat ∧ (∀ k : Fin 58, t.memory (slot (t.regs .rdi) k) = s.fpu k) ∧
      Holds t.memory (slot (t.regs .rdi) 65) (popOrder.map s.regs++ws) := by
  obtain ⟨u,hpush,hst,hursp,hufpu,hurcx⟩ := save_registers callee s ws h hw
  have hm := slot_mod (u.regs .rsp) 14
  rw [hursp, h16] at hm
  obtain ⟨t,hexec,hslot,hrbp,hrsp,hrsi,hmod,hfpu,hhold⟩ := save_fpu callee u _ hst (by omega)
    (by rw [List.length_append, List.length_map, popOrder_length]; omega)
  refine ⟨t,?_,?_,hrbp,hrsp,hrsi.trans hurcx,hmod,?_,hhold⟩
  · have hcode : saveState = popOrder.reverse.map Instr.push++
        [.subImm .rsp (512+8),.fxsave .rsp,.mov .rdi .rsp,.mov .rbp .rsp,.andImm .rsp (-16),
          .mov .rsi .rcx] := rfl
    rw [hcode, exec_append, hpush, Option.bind_some, hexec]
  · rw [show (79 : ℕ) = 65+14 from rfl, ← slot_add, hslot, hursp]
  · intro k
    rw [hfpu, hufpu]

/-- The frame pointer leads back to the FPU image and to the saved registers. -/
theorem restore_fpu (callee : Callee) (u : State) (ws : List Word)
    (h16 : 16 ∣ (u.regs .rbp).toNat) (h : Holds u.memory (slot (u.regs .rbp) 65) ws) :
    ∃ t, exec callee [.mov .rsp .rbp,.fxrstor .rsp,.addImm .rsp (512+8)] u = some t ∧
      t.regs .rsp = slot (u.regs .rbp) 65 ∧ t.memory = u.memory ∧ Stack t ws ∧
      t.fpu = fun k : Fin 58 => u.memory (slot (u.regs .rbp) k) := by
  obtain ⟨b,hb⟩ : ∃ b, b = u.regs .rbp := ⟨_,rfl⟩
  rw [← hb] at h h16 ⊢
  obtain ⟨t,ht⟩ : ∃ t, t = ((u.setReg .rsp b).setFpu (fun k => u.memory (slot b k))).setReg
    .rsp (b+(512+8)) := ⟨_,rfl⟩
  have hrsp : t.regs .rsp = slot b 65 := by
    rw [ht, setReg_same, slot]
    rfl
  have hmem : t.memory = u.memory := by simp [ht]
  have hm := slot_mod b 65
  refine ⟨t,?_,hrsp,hmem,⟨?_,?_⟩,by simp [ht]⟩
  · simp only [exec_cons, step, Option.bind_some, ← hb, setReg_same, if_pos h16, setReg_memory,
      setFpu_regs, ht]
    rfl
  · rw [hrsp]
    omega
  · rw [hrsp, hmem]
    exact h

/-- From the return of the handler on, everything saved at `rbp` comes back. -/
theorem restore_state (callee : Callee) (u : State) (vs rest : List Word) (c e : Word)
    (h16 : 16 ∣ (u.regs .rbp).toNat) (hl : vs.length = 14)
    (h : Holds u.memory (slot (u.regs .rbp) 65) (vs++(c::e::rest))) :
    ∃ t, exec callee restoreState u = some t ∧ popOrder.map t.regs = vs ∧ t.regs .rcx = c ∧
      t.regs .rsp = slot (u.regs .rbp) 81 ∧ t.memory = u.memory ∧ Stack t rest ∧
      t.fpu = fun k : Fin 58 => u.memory (slot (u.regs .rbp) k) := by
  obtain ⟨u1,hfirst,hrsp1,hmem1,hst,hfpu1⟩ := restore_fpu callee u _ h16 h
  have hst' : Stack u1 ((vs++[c])++(e::rest)) := by
    rw [List.append_assoc]
    exact hst
  obtain ⟨t1,hpops,⟨hal,hhold⟩,hvals,-,hrsp,hmem,hfpu,-⟩ := exec_pops callee (popOrder++[Reg.rcx])
    (by decide) (by decide) (vs++[c]) (e::rest) u1 hst' (by simp [popOrder, hl])
  rw [List.map_append] at hvals
  obtain ⟨hv,hc⟩ := List.append_inj' hvals rfl
  have hrsp' : t1.regs .rsp+8 = slot (u.regs .rbp) 81 := by
    rw [hrsp, hrsp1, slot_add]
    exact slot_next _ 80
  refine ⟨t1.setReg .rsp (t1.regs .rsp+8),?_,?_,?_,?_,?_,⟨?_,?_⟩,?_⟩
  · have hcode : restoreState = [.mov .rsp .rbp,.fxrstor .rsp,.addImm .rsp (512+8)]++
        ((popOrder++[Reg.rcx]).map Instr.pop++[.addImm .rsp 8]) := rfl
    rw [hcode, exec_append, hfirst, Option.bind_some, exec_append, hpops]
    rfl
  · rw [← hv]
    apply List.map_congr_left
    intro r hr
    exact setReg_other _ _ _ _ (fun he => absurd (he ▸ hr) (by decide))
  · rw [setReg_other _ _ _ _ (by decide)]
    exact (List.cons.inj hc).1
  · rw [setReg_same, hrsp']
  · rw [setReg_memory, hmem, hmem1]
  · rw [setReg_same]
    bv_omega
  · rw [setReg_same, setReg_memory]
    exact hhold.2
  · rw [setReg_fpu, hfpu, hfpu1]

/-- The words of `InterrupInfo` behind the FPU state, field by field. -/
theorem info_fields (m : WordMemory) (a : Word) (regs : Reg → Word) (c e : Word)
    (frame : InterrupContext) (h : Holds m (slot a 65) (popOrder.map regs++
      [c,e,frame.rip,frame.cs,frame.rflags,frame.rsp,frame.ss])) :
    (readInfo m a).greg = {generalRegisters regs with rcx := c} ∧
      (readInfo m a).errorCode = e ∧ (readInfo m a).ctx = frame := by
  simp only [popOrder, List.map_cons, List.map_nil, List.cons_append, List.nil_append, Holds,
    slot_next, Nat.reduceAdd, and_true] at h
  obtain ⟨h0,h1,h2,h3,h4,h5,h6,h7,h8,h9,h10,h11,h12,h13,h14,h15,h16,h17,h18,h19,h20⟩ := h
  simp only [readInfo, generalRegisters, h0, h1, h2, h3, h4, h5, h6, h7, h8, h9, h10, h11, h12, h13,
    h14, h15, h16, h17, h18, h19, h20, and_self]

/-- The call comes back with the frame pointer and the saved words. -/
theorem call_keeps (callee : Callee) (t : State) (b : Word)
    (hsys : SysVAt callee (t.pushed callee.returnAddress)) (hrdi : t.regs .rdi = b)
    (hrbp : t.regs .rbp = b) (hrsp : t.regs .rsp = b)
    (h16 : 16 ∣ b.toNat) : ∃ u, step callee t .call = some u ∧ u.regs .rbp = b ∧
      ∀ k < infoWords, u.memory (slot b k) = t.memory (slot b k) := by
  have hpush : t.push callee.returnAddress = some (t.pushed callee.returnAddress) :=
    if_pos (by rw [hrsp]; omega)
  have hrdi' : (t.pushed callee.returnAddress).regs .rdi = b := by
    rw [pushed_other _ _ _ (by decide), hrdi]
  refine ⟨callee.body (t.pushed callee.returnAddress),by rw [step, hpush]; rfl,?_,?_⟩
  · rw [hsys.rbp, pushed_other _ _ _ (by decide), hrbp]
  · intro k hk
    have hinfo := hsys.info k hk
    rw [hrdi'] at hinfo
    have hne : slot b k ≠ b-8 := by
      unfold infoWords at hk
      unfold slot
      intro he
      bv_omega
    rw [hinfo, State.pushed, setMemory_memory, hrsp, Function.update_of_ne hne]

/-- What a stub leaves for the common part: two more words on the stack, the
vector in `rcx` and all other registers as they were. -/
structure AfterStub (d e : State) (index : Word) (ws : List Word) : Prop where
  stack : Stack e ws
  aligned : (e.regs .rsp).toNat%16 = 8
  index : e.regs .rcx = index
  others : ∀ r, r ≠ .rsp → r ≠ .rcx → e.regs r = d.regs r
  fpu : e.fpu = d.fpu

theorem stub_runs (callee : Callee) (index sp : Word) (frame : InterrupContext) (s : State) :
    ∃ e, exec callee [.pushImm 0,.push .rcx,.movImm .rcx index] (deliver sp frame none s) = some e ∧
      AfterStub s e index
        [s.regs .rcx,0,frame.rip,frame.cs,frame.rflags,frame.rsp,frame.ss] ∧
      slot (e.regs .rsp) 2 = (deliver sp frame none s).regs .rsp := by
  obtain ⟨hst,hregs,hmod,hfpu⟩ := deliver_stack sp frame none s
  set d := deliver sp frame none s
  obtain ⟨hp1,hst1⟩ := push_stack d 0 _ hst (by simp)
  obtain ⟨hp2,hst2⟩ := push_stack (d.pushed 0) (s.regs .rcx) _ hst1 (by simp)
  have hrcx : (d.pushed 0).regs .rcx = s.regs .rcx := by
    rw [pushed_other _ _ _ (by decide), hregs _ (by decide)]
  have hslot : slot (((d.pushed 0).pushed (s.regs .rcx)).regs .rsp) 2 = d.regs .rsp :=
    pushAll_rsp [0,s.regs .rcx] d
  have hm := slot_mod (((d.pushed 0).pushed (s.regs .rcx)).regs .rsp) 2
  rw [hslot, hmod, Option.toList_none, List.length_nil] at hm
  refine ⟨((d.pushed 0).pushed (s.regs .rcx)).setReg .rcx index,?_,⟨?_,?_,?_,?_,?_⟩,?_⟩
  · simp only [exec_cons, step, hp1, hp2, hrcx, Option.bind_some]
    rfl
  · exact stack_setReg _ _ hst2 .rcx (by decide) index
  · rw [setReg_other _ _ _ _ (by decide)]
    omega
  · exact setReg_same _ _ _
  · intro r h1 h2
    rw [setReg_other _ _ _ _ h2, pushed_other _ _ _ h1, pushed_other _ _ _ h1, hregs r h1]
  · rw [setReg_fpu, pushed_fpu, pushed_fpu, hfpu]
  · rw [setReg_other _ _ _ _ (by decide), hslot]

theorem stub_with_ecode_runs (callee : Callee) (index sp ecode : Word) (frame : InterrupContext)
    (s : State) :
    ∃ e, exec callee [.push .rcx,.movImm .rcx index,.push .rcx,.push .rcx,.movImm .rcx index]
        (deliver sp frame (some ecode) s) = some e ∧
      AfterStub s e index [index,index,s.regs .rcx,ecode,frame.rip,frame.cs,frame.rflags,
        frame.rsp,frame.ss] := by
  obtain ⟨hst,hregs,hmod,hfpu⟩ := deliver_stack sp frame (some ecode) s
  set d := deliver sp frame (some ecode) s
  have hrcx : d.regs .rcx = s.regs .rcx := hregs _ (by decide)
  obtain ⟨hp1,hst1⟩ := push_stack d (s.regs .rcx) _ hst (by simp)
  obtain ⟨d1,hd1⟩ : ∃ d1, d1 = (d.pushed (s.regs .rcx)).setReg .rcx index := ⟨_,rfl⟩
  have hst1' : Stack d1 _ := hd1 ▸ stack_setReg _ _ hst1 .rcx (by decide) index
  have hrcx1 : d1.regs .rcx = index := by rw [hd1, setReg_same]
  obtain ⟨hp2,hst2⟩ := push_stack d1 index _ hst1' (by simp)
  obtain ⟨hp3,hst3⟩ := push_stack (d1.pushed index) index _ hst2 (by simp)
  have hrcx2 : (d1.pushed index).regs .rcx = index := by
    rw [pushed_other _ _ _ (by decide), hrcx1]
  have hslot : slot (((d1.pushed index).pushed index).regs .rsp) 2 = d1.regs .rsp :=
    pushAll_rsp [index,index] d1
  have hslot1 : slot (d1.regs .rsp) 1 = d.regs .rsp := by
    rw [hd1, setReg_other _ _ _ _ (by decide)]
    exact pushAll_rsp [s.regs .rcx] d
  have hm := slot_mod (((d1.pushed index).pushed index).regs .rsp) (2+1)
  rw [← slot_add, hslot, hslot1, hmod, Option.toList_some, List.length_singleton] at hm
  refine ⟨((d1.pushed index).pushed index).setReg .rcx index,?_,⟨?_,?_,?_,?_,?_⟩⟩
  · simp only [exec_cons, step, hrcx, hp1, Option.bind_some, ← hd1, hrcx1, hp2, hrcx2, hp3]
    rfl
  · exact stack_setReg _ _ hst3 .rcx (by decide) index
  · rw [setReg_other _ _ _ _ (by decide)]
    omega
  · exact setReg_same _ _ _
  · intro r h1 h2
    rw [setReg_other _ _ _ _ h2, pushed_other _ _ _ h1, pushed_other _ _ _ h1, hd1,
      setReg_other _ _ _ _ h2, pushed_other _ _ _ h1, hregs r h1]
  · rw [setReg_fpu, pushed_fpu, pushed_fpu, hd1, setReg_fpu, pushed_fpu, hfpu]

end Wasabi.X86.InterruptEntry
