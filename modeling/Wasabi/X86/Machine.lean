import Wasabi.Support.WordBits
import Wasabi.Support.WordStack

/-!
# The instructions of the interrupt entry code

A register file, a word memory and the image of the FPU state. Words are
accessed at multiples of eight only, which the processor sees to when it
aligns the stack before an interrupt; any other access has no step, and
neither has `fxsave64` at an address that is not a multiple of sixteen.
-/

set_option autoImplicit false

namespace Wasabi.X86.Machine
open Wasabi.WordBits Wasabi.WordStack

inductive Reg where
  | rax
  | rdx
  | rbx
  | rbp
  | rsi
  | rdi
  | r8
  | r9
  | r10
  | r11
  | r12
  | r13
  | r14
  | r15
  | rcx
  | rsp
  deriving DecidableEq, Repr

/-- What the processor pushes for an interrupt, by ascending address. -/
structure InterrupContext where
  rip : Word
  cs : Word
  rflags : Word
  rsp : Word
  ss : Word
  deriving DecidableEq

/-- `fpu` is what `fxsave64` writes, 464 of the 512 bytes of its area, and
`resumed` is the context that `iretq` has returned to. -/
structure State where
  regs : Reg → Word
  memory : WordMemory
  fpu : Fin 58 → Word
  resumed : Option InterrupContext

def State.setReg (s : State) (r : Reg) (v : Word) : State :=
  {s with regs := Function.update s.regs r v}

def State.setMemory (s : State) (m : WordMemory) : State := {s with memory := m}

def State.setFpu (s : State) (image : Fin 58 → Word) : State := {s with fpu := image}

def State.pushed (s : State) (v : Word) : State :=
  (s.setReg .rsp (s.regs .rsp-8)).setMemory (Function.update s.memory (s.regs .rsp-8) v)

inductive Instr where
  | pushImm (v : Word)
  | push (r : Reg)
  | pop (r : Reg)
  | movImm (r : Reg) (v : Word)
  | mov (d r : Reg)
  | subImm (r : Reg) (v : Word)
  | addImm (r : Reg) (v : Word)
  | andImm (r : Reg) (v : Word)
  | fxsave (base : Reg)
  | fxrstor (base : Reg)
  | call
  | iretq

/-- The effect of the called function, from its entry to its return. -/
structure Callee where
  returnAddress : Word
  body : State → State

def State.push (s : State) (v : Word) : Option State :=
  if 8 ∣ (s.regs .rsp).toNat then some (s.pushed v) else none

def State.frame (s : State) : InterrupContext :=
  ⟨s.memory (slot (s.regs .rsp) 0),s.memory (slot (s.regs .rsp) 1),
    s.memory (slot (s.regs .rsp) 2),s.memory (slot (s.regs .rsp) 3),
    s.memory (slot (s.regs .rsp) 4)⟩

def step (callee : Callee) (s : State) : Instr → Option State
  | .pushImm v => s.push v
  | .push r => s.push (s.regs r)
  | .pop r =>
    if 8 ∣ (s.regs .rsp).toNat then
      some ((s.setReg .rsp (s.regs .rsp+8)).setReg r (s.memory (s.regs .rsp)))
    else none
  | .movImm r v => some (s.setReg r v)
  | .mov d r => some (s.setReg d (s.regs r))
  | .subImm r v => some (s.setReg r (s.regs r-v))
  | .addImm r v => some (s.setReg r (s.regs r+v))
  | .andImm r v => some (s.setReg r (s.regs r &&& v))
  | .fxsave base =>
    if 16 ∣ (s.regs base).toNat then
      some (s.setMemory (storeWords s.memory (s.regs base) (List.ofFn s.fpu)))
    else none
  | .fxrstor base =>
    if 16 ∣ (s.regs base).toNat then
      some (s.setFpu (fun k => s.memory (slot (s.regs base) k)))
    else none
  | .call => (s.push callee.returnAddress).map callee.body
  | .iretq =>
    if 8 ∣ (s.regs .rsp).toNat then
      some {s.setReg .rsp s.frame.rsp with resumed := some s.frame}
    else none

def exec (callee : Callee) (code : List Instr) (s : State) : Option State :=
  code.foldlM (step callee) s

def pushAll (vs : List Word) (s : State) : State := vs.foldl State.pushed s

theorem exec_append (callee : Callee) (code rest : List Instr) (s : State) :
    exec callee (code++rest) s = (exec callee code s).bind (exec callee rest) := by
  simp [exec, List.foldlM_append]
  rfl

theorem exec_cons (callee : Callee) (i : Instr) (rest : List Instr) (s : State) :
    exec callee (i::rest) s = (step callee s i).bind (exec callee rest) := by
  simp [exec, List.foldlM_cons]
  rfl

@[simp] theorem setReg_same (s : State) (r : Reg) (v : Word) : (s.setReg r v).regs r = v :=
  Function.update_self _ _ _

@[simp] theorem setReg_other (s : State) (r d : Reg) (v : Word) (h : d ≠ r) :
    (s.setReg r v).regs d = s.regs d := Function.update_of_ne h _ _

@[simp] theorem setReg_memory (s : State) (r : Reg) (v : Word) :
    (s.setReg r v).memory = s.memory := rfl

@[simp] theorem setReg_fpu (s : State) (r : Reg) (v : Word) : (s.setReg r v).fpu = s.fpu := rfl

@[simp] theorem setMemory_regs (s : State) (m : WordMemory) : (s.setMemory m).regs = s.regs := rfl

@[simp] theorem setMemory_memory (s : State) (m : WordMemory) : (s.setMemory m).memory = m := rfl

@[simp] theorem setMemory_fpu (s : State) (m : WordMemory) : (s.setMemory m).fpu = s.fpu := rfl

@[simp] theorem setFpu_regs (s : State) (f : Fin 58 → Word) : (s.setFpu f).regs = s.regs := rfl

@[simp] theorem setFpu_memory (s : State) (f : Fin 58 → Word) :
    (s.setFpu f).memory = s.memory := rfl

@[simp] theorem setFpu_fpu (s : State) (f : Fin 58 → Word) : (s.setFpu f).fpu = f := rfl

/-- The stack pointer is aligned and the given words are on the stack. -/
structure Stack (s : State) (ws : List Word) : Prop where
  aligned : 8 ∣ (s.regs .rsp).toNat
  holds : Holds s.memory (s.regs .rsp) ws

theorem stack_setReg (s : State) (ws : List Word) (h : Stack s ws) (r : Reg) (hr : r ≠ .rsp)
    (v : Word) : Stack (s.setReg r v) ws := by
  have hrsp := setReg_other s r .rsp v hr.symm
  exact ⟨hrsp ▸ h.aligned,by rw [setReg_memory, hrsp]; exact h.holds⟩

theorem pushed_other (s : State) (v : Word) (r : Reg) (hr : r ≠ .rsp) :
    (s.pushed v).regs r = s.regs r := by
  rw [State.pushed, setMemory_regs, setReg_other _ _ _ _ hr]

theorem pushed_rsp (s : State) (v : Word) : (s.pushed v).regs .rsp = s.regs .rsp-8 := by
  rw [State.pushed, setMemory_regs, setReg_same]

theorem pushed_fpu (s : State) (v : Word) : (s.pushed v).fpu = s.fpu := rfl

theorem push_stack (s : State) (v : Word) (ws : List Word) (h : Stack s ws)
    (hw : ws.length < 2^32) : s.push v = some (s.pushed v) ∧ Stack (s.pushed v) (v::ws) := by
  have ha := h.aligned
  refine ⟨if_pos ha,?_,?_⟩
  · rw [pushed_rsp]
    bv_omega
  · rw [pushed_rsp]
    exact holds_push _ _ _ _ (by omega) h.holds

theorem pushAll_cons (v : Word) (vs : List Word) (s : State) :
    pushAll (v::vs) s = pushAll vs (s.pushed v) := rfl

theorem pushAll_other (vs : List Word) (s : State) (r : Reg) (hr : r ≠ .rsp) :
    (pushAll vs s).regs r = s.regs r := by
  induction vs generalizing s with
  | nil => rfl
  | cons v vs ih => rw [pushAll_cons, ih, pushed_other s v r hr]

theorem pushAll_rsp (vs : List Word) (s : State) :
    slot ((pushAll vs s).regs .rsp) vs.length = s.regs .rsp := by
  induction vs generalizing s with
  | nil => simp [pushAll]
  | cons v vs ih =>
    rw [pushAll_cons, List.length_cons, ← slot_add, ih, pushed_rsp, slot]
    bv_omega

theorem pushAll_fpu (vs : List Word) (s : State) : (pushAll vs s).fpu = s.fpu := by
  induction vs generalizing s with
  | nil => rfl
  | cons v vs ih => rw [pushAll_cons, ih, pushed_fpu]

theorem pushAll_stack (vs ws : List Word) (s : State) (h : Stack s ws)
    (hw : vs.length+ws.length < 2^32) : Stack (pushAll vs s) (vs.reverse++ws) := by
  induction vs generalizing s ws with
  | nil => exact h
  | cons v vs ih =>
    rw [List.length_cons] at hw
    have hp := (push_stack s v ws h (by omega)).2
    have hrest := ih (v::ws) _ hp (by rw [List.length_cons]; omega)
    rwa [List.reverse_cons, List.append_assoc]

/-- A sequence of register pushes saves the values the registers have. -/
theorem exec_pushes (callee : Callee) (rs : List Reg) (hrs : .rsp ∉ rs) (ws : List Word) (s : State)
    (h : Stack s ws) (hw : rs.length+ws.length < 2^32) :
    exec callee (rs.map Instr.push) s = some (pushAll (rs.map s.regs) s) := by
  induction rs generalizing s ws with
  | nil => rfl
  | cons r rs ih =>
    rw [List.length_cons] at hw
    rw [List.mem_cons, not_or] at hrs
    obtain ⟨hp,hst⟩ := push_stack s (s.regs r) ws h (by omega)
    have hsame : rs.map (s.pushed (s.regs r)).regs = rs.map s.regs := by
      apply List.map_congr_left
      intro q hq
      exact pushed_other s _ q (fun he => hrs.2 (he ▸ hq))
    rw [List.map_cons, exec_cons, step, hp, Option.bind_some,
      ih hrs.2 _ _ hst (by rw [List.length_cons]; omega), hsame, List.map_cons, pushAll_cons]

/-- A sequence of pops takes the words off the stack, one register each. -/
theorem exec_pops (callee : Callee) (rs : List Reg) (hd : rs.Nodup) (hrs : .rsp ∉ rs)
    (vs ws : List Word) (s : State) (h : Stack s (vs++ws)) (hl : rs.length = vs.length) :
    ∃ t, exec callee (rs.map Instr.pop) s = some t ∧ Stack t ws ∧ rs.map t.regs = vs ∧
      (∀ r, r ∉ rs → r ≠ .rsp → t.regs r = s.regs r) ∧
      t.regs .rsp = slot (s.regs .rsp) rs.length ∧ t.memory = s.memory ∧ t.fpu = s.fpu ∧
      t.resumed = s.resumed := by
  induction rs generalizing s vs with
  | nil =>
    obtain rfl : vs = [] := List.length_eq_zero_iff.mp hl.symm
    exact ⟨s,rfl,h,rfl,fun _ _ _ => rfl,by simp,rfl,rfl,rfl⟩
  | cons r rs ih =>
    cases vs with
    | nil => simp at hl
    | cons v vs =>
      rw [List.mem_cons, not_or] at hrs
      obtain ⟨hr,hd'⟩ := List.nodup_cons.mp hd
      obtain ⟨hv,hrest⟩ := h.holds
      have ha := h.aligned
      let u := (s.setReg .rsp (s.regs .rsp+8)).setReg r (s.memory (s.regs .rsp))
      have hursp : u.regs .rsp = s.regs .rsp+8 := by
        rw [setReg_other _ _ _ _ hrs.1, setReg_same]
      have hst : Stack u (vs++ws) := by
        refine ⟨?_,?_⟩
        · rw [hursp]
          bv_omega
        · rw [hursp]
          exact hrest
      obtain ⟨t,hexec,hstack,hvals,hother,hrsp,hmem,hfpu,hres⟩ :=
        ih hd' hrs.2 vs u hst (by simpa using hl)
      refine ⟨t,?_,hstack,?_,?_,?_,hmem,hfpu,hres⟩
      · rw [List.map_cons, exec_cons, step, if_pos ha, Option.bind_some]
        exact hexec
      · rw [List.map_cons, hvals, hother r hr (Ne.symm hrs.1), setReg_same, hv]
      · intro q hq hq'
        rw [List.mem_cons, not_or] at hq
        rw [hother q hq.2 hq', setReg_other _ _ _ _ hq.1, setReg_other _ _ _ _ hq']
      · rw [hrsp, hursp, slot_succ, List.length_cons]

theorem align_mask (x : Word) : (x &&& -16).toNat = x.toNat-x.toNat%16 := by
  rw [BitVec.toNat_and]
  exact and_complement_mask 64 4 x.toNat (by decide) x.isLt

theorem align_mask_eq (x : Word) (h : 16 ∣ x.toNat) : x &&& -16 = x := by
  apply BitVec.eq_of_toNat_eq
  rw [align_mask]
  omega

end Wasabi.X86.Machine
