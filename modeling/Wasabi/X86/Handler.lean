import Wasabi.X86.InterruptEntry
import Wasabi.Print.LogLines
import Wasabi.Qemu.Launch
import Wasabi.Support.HexText

/-!
# The exception handler

The handler prints the saved state and a few lines on its vector. It returns
from a breakpoint only; every other exception is fatal. Its text is a
function of the saved state, of the vector and of what it looks up, and it
determines the state and the vector.
-/

set_option autoImplicit false

namespace Wasabi.X86.Handler
open Wasabi.Rust Wasabi.Outcome Wasabi.WordStack Wasabi.X86.Machine Wasabi.X86.InterruptEntry
open Wasabi.Serial.Console Wasabi.Print.LogLines Wasabi.Qemu.Launch
open Wasabi.Templates Wasabi.HexText

/-- What the handler looks up besides its arguments. -/
structure Surroundings where
  cr2 : Word
  memory : ℕ → Option UInt8

def errorAt (fuel line : ℕ) (args : List (List Char)) : Prog Unit :=
  log fuel .error "src/x86.rs".toList line args

/-- The format string of `InterrupInfo`. -/
def infoSlots : List Slot :=
  [("\n        \x7b\n            rip: 0x".toList,isHexDigit),(", CS: 0x".toList,isHexDigit),
    (",\n            rsp: 0x".toList,isHexDigit),(", SS: 0x".toList,isHexDigit),
    (",\n            rbp: 0x".toList,isHexDigit),
    (",\n\n            rflags: 0x".toList,isHexDigit),
    (",\n            error_code: 0x".toList,isHexDigit),
    (",\n\n            rax: 0x".toList,isHexDigit),(", rcx: 0x".toList,isHexDigit),
    (",\n            rdx: 0x".toList,isHexDigit),(", rbx: 0x".toList,isHexDigit),
    (",\n            rsi: 0x".toList,isHexDigit),(", rdi: 0x".toList,isHexDigit),
    (",\n            r8:  0x".toList,isHexDigit),(", r9:  0x".toList,isHexDigit),
    (",\n            r10: 0x".toList,isHexDigit),(", r11: 0x".toList,isHexDigit),
    (",\n            r12: 0x".toList,isHexDigit),(", r13: 0x".toList,isHexDigit),
    (",\n            r14: 0x".toList,isHexDigit),(", r15: 0x".toList,isHexDigit)]

def infoEnd : List Char := ",\n        \x7d".toList

/-- The arguments, each with the width of its digits. -/
def infoArgs (info : InterrupInfo) : List (ℕ × Word) :=
  [(16,info.ctx.rip),(4,info.ctx.cs),(16,info.ctx.rsp),(4,info.ctx.ss),(16,info.greg.rbp),
    (16,info.ctx.rflags),(16,info.errorCode),(16,info.greg.rax),(16,info.greg.rcx),
    (16,info.greg.rdx),(16,info.greg.rbx),(16,info.greg.rsi),(16,info.greg.rdi),(16,info.greg.r8),
    (16,info.greg.r9),(16,info.greg.r10),(16,info.greg.r11),(16,info.greg.r12),(16,info.greg.r13),
    (16,info.greg.r14),(16,info.greg.r15)]

def infoText (info : InterrupInfo) : List Char :=
  fill infoEnd infoSlots ((infoArgs info).map (fun a => padded a.1 a.2.toNat))

/-- `{bytes:02X?}` for a slice. -/
def bytesText : List UInt8 → List Char
  | [] => "[]".toList
  | b::bs => ['[']++digits 2 b.toNat++bs.flatMap (fun c => ", ".toList++digits 2 c.toNat)++[']']

/-- `slice::from_raw_parts`, for a slice that is not null and does not reach the
end of the address space. -/
def fromRawParts (memory : ℕ → Option UInt8) (p n : ℕ) : Eval (List UInt8) :=
  if p = 0 ∨ 2^64 ≤ p+n then .error .undefinedBehaviour
  else deref ((List.range n).mapM (fun i => memory (p+i)))

def causeText (errorCode : Word) : List (List Char) :=
  ["Caused by: A ".toList,
    if errorCode &&& 0b00000100 ≠ 0 then "user".toList else "supervisor".toList,
    " mode ".toList,
    if errorCode &&& 0b00010000 ≠ 0 then "instruction fetch".toList
      else if errorCode &&& 0b0010 ≠ 0 then "data write".toList else "data read".toList,
    " on a ".toList,
    if errorCode &&& 0b0001 ≠ 0 then "present".toList else "non-present".toList,
    " page. page structures are ".toList,
    if errorCode &&& 0b1000 ≠ 0 then "invalid".toList else "valid".toList]

/-- The arms of the `match` that lead to the panic. -/
def explain (env : Surroundings) (info : InterrupInfo) (index fuel : ℕ) : Prog Unit :=
  match index with
  | 6 => errorAt fuel 592 ["Invalid Opcode".toList]
  | 8 => errorAt fuel 595 ["Double Fault".toList]
  | 13 => do
    errorAt fuel 598 ["General Protection Fault".toList]
    let rip := info.ctx.rip
    errorAt fuel 602 ["Bytes @ RIP(0x".toList,padded 16 rip.toNat,")".toList]
    let bytes ← observe (fun _ => fromRawParts env.memory rip.toNat 16)
    errorAt fuel 607 [" = ".toList,bytesText bytes]
  | 14 => do
    errorAt fuel 610 ["Page Fault".toList]
    errorAt fuel 611 ["CR2=".toList,padded 18 env.cr2.toNat]
    errorAt fuel 613 (causeText info.errorCode)
  | _ => errorAt fuel 640 ["Not handled".toList]

/-- The text `fatal` is that of the `PanicInfo` of `panic!("fatal exception")`. -/
def inthandler (fatal : List Char) (env : Surroundings) (info : InterrupInfo) (index fuel : ℕ) :
    Prog Unit := do
  errorAt fuel 583 ["Interrupt Info: ".toList,infoText info]
  errorAt fuel 584 ["Exception 0x".toList,padded 2 index,": ".toList]
  if index = 3 then errorAt fuel 588 ["BreakPoint".toList]
  else do
    explain env info index fuel
    throw (.panicked fatal)

/-- The text is that of the `PanicInfo` of `panic!("unexpected interrupt!")`. -/
def intHandlerUnimplemented {α : Type} (unexpected : List Char) : Prog α :=
  throw (.panicked unexpected)

/-- The handler in the kernel, which has a panic handler. -/
def handle (fatal : List Char) (env : Surroundings) (info : InterrupInfo) (index : ℕ) :
    ℕ → Prog Unit := onPanic panicHandler (inthandler fatal env info index)

def lineAt (line : ℕ) (args : List (List Char)) : List Char :=
  logText .error "src/x86.rs".toList line args

def bytesAt (env : Surroundings) (p : ℕ) : List UInt8 :=
  (List.range 16).map (fun i => (env.memory (p+i)).getD 0)

/-- A slice of 16 bytes may start here. -/
structure Readable (env : Surroundings) (p : ℕ) : Prop where
  valid : p ≠ 0 ∧ p+16 < 2^64
  bytes : ∀ i < 16, (env.memory (p+i)).isSome

def explanation (env : Surroundings) (info : InterrupInfo) (index : ℕ) : List Char :=
  match index with
  | 6 => lineAt 592 ["Invalid Opcode".toList]
  | 8 => lineAt 595 ["Double Fault".toList]
  | 13 => lineAt 598 ["General Protection Fault".toList]++
      (lineAt 602 ["Bytes @ RIP(0x".toList,padded 16 info.ctx.rip.toNat,")".toList]++
        lineAt 607 [" = ".toList,bytesText (bytesAt env info.ctx.rip.toNat)])
  | 14 => lineAt 610 ["Page Fault".toList]++(lineAt 611 ["CR2=".toList,padded 18 env.cr2.toNat]++
      lineAt 613 (causeText info.errorCode))
  | _ => lineAt 640 ["Not handled".toList]

/-- The text of the panic handler. -/
def panicText (info : List Char) : List Char :=
  logText .error "src/main.rs".toList 42 ["PANIC: ".toList,info]

def report (fatal : List Char) (env : Surroundings) (info : InterrupInfo) (index : ℕ) :
    List Char :=
  lineAt 583 ["Interrupt Info: ".toList,infoText info]++
    (lineAt 584 ["Exception 0x".toList,padded 2 index,": ".toList]++
      if index = 3 then lineAt 588 ["BreakPoint".toList]
      else explanation env info index++panicText fatal)

def ending (index : ℕ) : Except Ending Unit :=
  if index = 3 then .ok () else .error (.exited .fail)

theorem sends_errorAt (line : ℕ) (args : List (List Char)) :
    Sends (fun fuel => errorAt fuel line args) (lineAt line args) (.ok ()) :=
  sends_log .error "src/x86.rs".toList line args

theorem sends_panicHandler {α : Type} (info : List Char) :
    Sends (fun fuel => (panicHandler fuel info : Prog α)) (panicText info)
      (.error (.exited .fail)) := by
  have h := sends_bind _ (fun _ _ => (exitQemu .fail : Prog α)) _ _ () _
    (sends_log .error "src/main.rs".toList 42 ["PANIC: ".toList,info]) (sends_exit .fail)
  rwa [List.append_nil] at h

theorem mapM_some {α β : Type} (f : α → Option β) (d : β) (l : List α)
    (h : ∀ a ∈ l, (f a).isSome) : l.mapM f = some (l.map (fun a => (f a).getD d)) := by
  induction l with
  | nil => rfl
  | cons a l ih =>
    obtain ⟨b,hb⟩ := Option.isSome_iff_exists.mp (h a List.mem_cons_self)
    simp [List.mapM_cons, hb, ih (fun c hc => h c (List.mem_cons_of_mem a hc))]

theorem fromRawParts_ok (env : Surroundings) (p : ℕ) (h : Readable env p) :
    fromRawParts env.memory p 16 = .ok (bytesAt env p) := by
  have hvalid : ¬(p = 0 ∨ 2^64 ≤ p+16) := by
    have h := h.valid
    omega
  rw [fromRawParts, if_neg hvalid, mapM_some _ 0 _ (fun i hi => h.bytes i (List.mem_range.mp hi))]
  rfl

theorem sends_explain (env : Surroundings) (info : InterrupInfo) (index : ℕ)
    (h : index = 13 → Readable env info.ctx.rip.toNat) :
    Sends (explain env info index) (explanation env info index) (.ok ()) := by
  unfold explain explanation
  split
  · exact sends_errorAt 592 _
  · exact sends_errorAt 595 _
  · have hbytes := sends_bind _ (fun fuel bytes => errorAt fuel 607 [" = ".toList,bytesText bytes])
      _ _ _ _ (sends_observe _ _ (fromRawParts_ok env _ (h rfl))) (sends_errorAt 607 _)
    rw [List.nil_append] at hbytes
    exact sends_seq _ _ _ _ _ (sends_errorAt 598 _)
      (sends_seq _ _ _ _ _ (sends_errorAt 602 _) hbytes)
  · exact sends_seq _ _ _ _ _ (sends_errorAt 610 _)
      (sends_seq _ _ _ _ _ (sends_errorAt 611 _) (sends_errorAt 613 _))
  · exact sends_errorAt 640 _

theorem sends_inthandler (fatal : List Char) (env : Surroundings) (info : InterrupInfo)
    (index : ℕ) (h : index = 13 → Readable env info.ctx.rip.toNat) :
    Sends (inthandler fatal env info index)
      (lineAt 583 ["Interrupt Info: ".toList,infoText info]++
        (lineAt 584 ["Exception 0x".toList,padded 2 index,": ".toList]++
          if index = 3 then lineAt 588 ["BreakPoint".toList] else explanation env info index))
      (if index = 3 then .ok () else .error (.panicked fatal)) := by
  refine sends_seq _ _ _ _ _ (sends_errorAt 583 _) (sends_seq _ _ _ _ _ (sends_errorAt 584 _) ?_)
  by_cases h3 : index = 3
  · simp only [if_pos h3]
    exact sends_errorAt 588 _
  · simp only [if_neg h3]
    have hpanic : Sends (fun _ => (throw (.panicked fatal) : Prog Unit)) [] _ := sends_panic fatal
    have hfatal := sends_seq _ _ _ _ _ (sends_explain env info index h) hpanic
    rwa [List.append_nil] at hfatal

/-- The handler reports, and only a breakpoint returns. -/
theorem sends_report (fatal : List Char) (env : Surroundings) (info : InterrupInfo) (index : ℕ)
    (h : index = 13 → Readable env info.ctx.rip.toNat) :
    Sends (handle fatal env info index) (report fatal env info index) (ending index) := by
  have hall := sends_inthandler fatal env info index h
  unfold handle report ending
  by_cases h3 : index = 3
  · simp only [if_pos h3] at hall ⊢
    exact sends_calm panicHandler _ _ _ hall (fun info hinfo => by cases hinfo)
  · simp only [if_neg h3] at hall ⊢
    have hpanic := sends_onPanic panicHandler _ _ _ fatal _ hall (sends_panicHandler fatal)
    simpa only [List.append_assoc] using hpanic

/-- What a report shows of the saved state. -/
def shown (info : InterrupInfo) : GeneralRegisterContext × Word × InterrupContext :=
  (info.greg,info.errorCode,info.ctx)

theorem infoArgs_shown (info info' : InterrupInfo) :
    infoArgs info = infoArgs info' ↔ shown info = shown info' := by
  obtain ⟨-,-,⟨rax,rdx,rbx,rbp,rsi,rdi,r8,r9,r10,r11,r12,r13,r14,r15,rcx⟩,e,⟨rip,cs,rf,rsp,ss⟩⟩ :=
    info
  simp only [infoArgs, shown, List.cons.injEq, Prod.mk.injEq, true_and, and_true]
  constructor
  · rintro ⟨h1,h2,h3,h4,h5,h6,h7,h8,h9,h10,h11,h12,h13,h14,h15,h16,h17,h18,h19,h20,h21⟩
    simp only [h1, h2, h3, h4, h5, h6, h7, h8, h9, h10, h11, h12, h13, h14, h15, h16, h17, h18, h19,
      h20, h21, and_self]
  · rintro ⟨hgreg,he,hctx⟩
    simp only [← hgreg, ← he, ← hctx, and_self]

theorem info_fits (info : InterrupInfo) :
    Fits infoSlots ((infoArgs info).map (fun a => padded a.1 a.2.toNat)) := by
  apply fits_uniform isHexDigit _ _ rfl
  · simp [infoSlots]
  · intro v hv
    obtain ⟨a,-,rfl⟩ := List.mem_map.mp hv
    exact padded_digits true a.1 a.2.toNat

/-- Numbers of the same widths are determined by their digits. -/
theorem padded_inj (as bs : List (ℕ × Word)) (hw : as.map Prod.fst = bs.map Prod.fst)
    (h : as.map (fun a => padded a.1 a.2.toNat) = bs.map (fun a => padded a.1 a.2.toNat)) :
    as = bs := by
  induction as generalizing bs with
  | nil => exact (List.map_eq_nil_iff.mp hw.symm).symm
  | cons a as ih =>
    cases bs with
    | nil => cases hw
    | cons b bs =>
      obtain ⟨hwidth,hw⟩ := List.cons.inj hw
      obtain ⟨hdigits,h⟩ := List.cons.inj h
      have hnumber := congrArg fromDigits hdigits
      rw [fromDigits_padded, fromDigits_padded] at hnumber
      rw [Prod.ext hwidth (BitVec.eq_of_toNat_eq hnumber), ih bs hw h]

/-- The dump determines what it shows and ends where it ends. -/
theorem infoText_split (info info' : InterrupInfo) (rest rest' : List Char)
    (h : infoText info++rest = infoText info'++rest') :
    shown info = shown info' ∧ rest = rest' := by
  obtain ⟨hargs,hrest⟩ := fill_split infoEnd infoSlots (by decide) _ _ (info_fits info)
    (info_fits info') rest rest' h
  exact ⟨(infoArgs_shown info info').mp (padded_inj _ _ rfl hargs),hrest⟩

theorem byte_digits_inj (b c : UInt8) (h : digits 2 b.toNat = digits 2 c.toNat) : b = c := by
  have hbyte : ∀ x : UInt8, x.toNat%16^2 = x.toNat := fun x => Nat.mod_eq_of_lt x.toNat_lt
  have hnumber := congrArg fromDigits h
  rw [fromDigits_digitsOf, fromDigits_digitsOf, hbyte, hbyte] at hnumber
  exact UInt8.toNat_inj.mp hnumber

/-- The bytes behind the first, each with a separator. -/
theorem later_bytes_inj (bs cs : List UInt8) (hl : bs.length = cs.length)
    (h : bs.flatMap (fun c => ", ".toList++digits 2 c.toNat) =
      cs.flatMap (fun c => ", ".toList++digits 2 c.toNat)) : bs = cs := by
  induction bs generalizing cs with
  | nil => exact (List.length_eq_zero_iff.mp hl.symm).symm
  | cons b bs ih =>
    cases cs with
    | nil => cases hl
    | cons c cs =>
      rw [List.flatMap_cons, List.flatMap_cons] at h
      obtain ⟨hfirst,hrest⟩ := List.append_inj h (by simp)
      rw [byte_digits_inj b c (List.append_cancel_left hfirst), ih cs (Nat.succ.inj hl) hrest]

theorem later_bytes_length (bs : List UInt8) :
    (bs.flatMap (fun c => ", ".toList++digits 2 c.toNat)).length = 4*bs.length := by
  induction bs with
  | nil => rfl
  | cons b bs ih =>
    rw [List.flatMap_cons, List.length_append, ih, List.length_cons]
    simp
    omega

theorem bytesText_inj (bs cs : List UInt8) (hl : bs.length = cs.length) (rest rest' : List Char)
    (h : bytesText bs++rest = bytesText cs++rest') : bs = cs := by
  cases bs with
  | nil => exact (List.length_eq_zero_iff.mp hl.symm).symm
  | cons b bs =>
    cases cs with
    | nil => cases hl
    | cons c cs =>
      have hl' : bs.length = cs.length := Nat.succ.inj hl
      simp only [bytesText, List.append_assoc] at h
      obtain ⟨hfirst,h⟩ := List.append_inj (List.append_cancel_left h) (by simp)
      obtain ⟨hlater,-⟩ := List.append_inj h
        (by rw [later_bytes_length, later_bytes_length, hl'])
      rw [byte_digits_inj b c hfirst, later_bytes_inj bs cs hl' hlater]

/-- What the handler looks up for the vector. -/
def Agree (env env' : Surroundings) (info : InterrupInfo) (index : ℕ) : Prop :=
  (index = 13 → bytesAt env info.ctx.rip.toNat = bytesAt env' info.ctx.rip.toNat) ∧
    (index = 14 → env.cr2 = env'.cr2)

theorem explanation_congr (env env' : Surroundings) (info info' : InterrupInfo) (index : ℕ)
    (h : shown info = shown info') (ha : Agree env env' info index) :
    explanation env info index = explanation env' info' index := by
  have he : info.errorCode = info'.errorCode := congrArg (fun x => x.2.1) h
  have hrip : info.ctx.rip = info'.ctx.rip := congrArg (fun x => x.2.2.rip) h
  unfold explanation
  split
  · rfl
  · rfl
  · rw [ha.1 rfl, hrip]
  · rw [ha.2 rfl, he]
  · rfl

/-- The lines on a vector determine what was looked up. -/
theorem explanation_agree (env env' : Surroundings) (info info' : InterrupInfo) (index : ℕ)
    (hs : shown info = shown info') (rest rest' : List Char)
    (h : explanation env info index++rest = explanation env' info' index++rest') :
    Agree env env' info index := by
  have hrip : info'.ctx.rip = info.ctx.rip := congrArg (fun x => x.2.2.rip) hs.symm
  constructor
  · rintro rfl
    simp only [explanation, lineAt, logText, hrip, List.flatten_cons, List.flatten_nil,
      List.append_nil, List.append_assoc, List.append_cancel_left_eq] at h
    exact bytesText_inj _ _ (by simp [bytesAt]) _ _ h
  · rintro rfl
    simp only [explanation, lineAt, logText, List.flatten_cons, List.flatten_nil, List.append_nil,
      List.append_assoc, List.append_cancel_left_eq] at h
    exact BitVec.eq_of_toNat_eq (padded_split true 18 _ _ ['\n'] _ _ ⟨_,_,rfl,by decide⟩ h).1

/-- A report determines what it shows, the vector, and what was looked up. -/
theorem report_inj (fatal : List Char) (env env' : Surroundings) (info info' : InterrupInfo)
    (index index' : ℕ) :
    report fatal env info index = report fatal env' info' index' ↔
      shown info = shown info' ∧ index = index' ∧ Agree env env' info index := by
  constructor
  · intro h
    simp only [report, lineAt, logText, List.flatten_cons, List.flatten_nil, List.append_nil,
      List.append_assoc, List.append_cancel_left_eq] at h
    obtain ⟨hs,h⟩ := infoText_split info info' _ _ h
    simp only [List.append_cancel_left_eq] at h
    obtain ⟨rfl,h⟩ := padded_split true 2 index index' ": ".toList _ _
        ⟨':',[' '],rfl,by decide⟩ h
    refine ⟨hs,rfl,?_⟩
    by_cases h3 : index = 3
    · subst h3
      exact ⟨fun h => absurd h (by decide),fun h => absurd h (by decide)⟩
    · simp only [List.append_cancel_left_eq, if_neg h3] at h
      exact explanation_agree env env' info info' index hs _ _ h
  · rintro ⟨hs,rfl,ha⟩
    have hinfo : infoText info = infoText info' := by
      rw [infoText, infoText, (infoArgs_shown info info').mpr hs]
    rw [report, report, hinfo, explanation_congr env env' info info' index hs ha]

theorem padded_narrow (width n : ℕ) : Narrow (padded width n) :=
  fun c hc => hexDigit_narrow c (padded_digits true width n c hc)

theorem lineAt_narrow (line : ℕ) (args : List (List Char)) (h : ∀ arg ∈ args, Narrow arg) :
    Narrow (lineAt line args) := by
  exact logText_narrow _ _ _ _ (by decide) h

theorem infoText_narrow (info : InterrupInfo) : Narrow (infoText info) := by
  apply fill_narrow _ _ _ (by decide) (by decide)
  intro v hv
  obtain ⟨a,-,rfl⟩ := List.mem_map.mp hv
  exact padded_narrow _ _

theorem bytesText_narrow (bs : List UInt8) : Narrow (bytesText bs) := by
  have hbyte : ∀ b : UInt8, Narrow (digits 2 b.toNat) :=
    fun b c hc => hexDigit_narrow c (digitsOf_isHexDigit true 2 b.toNat c hc)
  cases bs with
  | nil => decide
  | cons b bs =>
    simp only [bytesText, narrow_append]
    refine ⟨⟨⟨by decide,hbyte b⟩,?_⟩,by decide⟩
    intro c hc
    obtain ⟨a,-,hc⟩ := List.mem_flatMap.mp hc
    exact (narrow_append _ _).mpr ⟨by decide,hbyte a⟩ c hc

theorem causeText_narrow (errorCode : Word) : ∀ arg ∈ causeText errorCode, Narrow arg := by
  unfold causeText
  split_ifs
  all_goals decide

theorem explanation_narrow (env : Surroundings) (info : InterrupInfo) (index : ℕ) :
    Narrow (explanation env info index) := by
  unfold explanation
  split
  · exact lineAt_narrow _ _ (by decide)
  · exact lineAt_narrow _ _ (by decide)
  · rw [narrow_append, narrow_append]
    refine ⟨lineAt_narrow _ _ (by decide),lineAt_narrow _ _ ?_,lineAt_narrow _ _ ?_⟩
    · simp only [List.forall_mem_cons]
      exact ⟨by decide,padded_narrow _ _,by decide,by decide⟩
    · simp only [List.forall_mem_cons]
      exact ⟨by decide,bytesText_narrow _,by decide⟩
  · rw [narrow_append, narrow_append]
    refine ⟨lineAt_narrow _ _ (by decide),lineAt_narrow _ _ ?_,
      lineAt_narrow _ _ (causeText_narrow _)⟩
    simp only [List.forall_mem_cons]
    exact ⟨by decide,padded_narrow _ _,by decide⟩
  · exact lineAt_narrow _ _ (by decide)

theorem panicText_narrow (info : List Char) (h : Narrow info) : Narrow (panicText info) := by
  apply logText_narrow _ _ _ _ (by decide)
  simp only [List.forall_mem_cons]
  exact ⟨by decide,h,by decide⟩

/-- Nothing of a report is lost on the way. -/
theorem report_narrow (fatal : List Char) (env : Surroundings) (info : InterrupInfo) (index : ℕ)
    (h : Narrow fatal) : Narrow (report fatal env info index) := by
  rw [report, narrow_append, narrow_append]
  refine ⟨lineAt_narrow _ _ ?_,lineAt_narrow _ _ ?_,?_⟩
  · simp only [List.forall_mem_cons]
    exact ⟨by decide,infoText_narrow info,by decide⟩
  · simp only [List.forall_mem_cons]
    exact ⟨by decide,padded_narrow _ _,by decide,by decide⟩
  · split_ifs
    · exact lineAt_narrow _ _ (by decide)
    · rw [narrow_append]
      exact ⟨explanation_narrow env info index,panicText_narrow fatal h⟩

end Wasabi.X86.Handler
