import Wasabi.Serial.Console

/-!
# Launching the kernel

A panic enters the panic handler, which reports it and ends the machine. The
exit device turns the byte written to it into the status of QEMU, and the
script that launched QEMU turns the status into a verdict.
-/

set_option autoImplicit false

namespace Wasabi.Qemu.Launch
open Wasabi.Outcome Wasabi.PolledOutput Wasabi.Serial.Port Wasabi.Serial.Console
open Wasabi.DecimalText

/-- A `#[panic_handler]` takes over where the program panics. -/
def onPanic {α : Type} (handler : ℕ → List Char → Prog α) (x : ℕ → Prog α) (fuel : ℕ) :
    Prog α := fun bus => do
  match ← x fuel bus with
  | (.error (.panicked info),bus) => handler fuel info bus
  | r => pure r

/-- The panic handler of the kernel. -/
def panicHandler {α : Type} (fuel : ℕ) (info : List Char) : Prog α := do
  log fuel .error "src/main.rs".toList 42 ["PANIC: ".toList,info]
  exitQemu .fail

/-- `-device isa-debug-exit,iobase=0x4,iosize=0x04`. -/
def exitStatus : Access ℕ UInt8 → Option ℕ
  | .write port data => if 4 ≤ port ∧ port < 4+4 then some (data.toNat <<< 1 ||| 1) else none
  | .read _ _ => none

/-- QEMU ends at the first write to the device. -/
def qemuStatus (trace : List (Access ℕ UInt8)) : Option ℕ := trace.findSome? exitStatus

/-- What the script prints at the end, and its own status. -/
def launchQemu (retcode : ℕ) : List Char × ℕ :=
  if retcode = 3 then ("\nPASS\n".toList,0)
  else if retcode = 0 then ([],0)
  else ("\nFAIL: QEMU returned ".toList++decimal retcode++['\n'],1)

/-- The verdict on a kernel that ended with the code. -/
def verdict : QemuExitCode → List Char × ℕ
  | .success => ("\nPASS\n".toList,0)
  | .fail => ("\nFAIL: QEMU returned 5\n".toList,1)

theorem sends_onPanic {α : Type} (handler : ℕ → List Char → Prog α) (x : ℕ → Prog α)
    (s t info : List Char) (r : Except Ending α) (hx : Sends x s (.error (.panicked info)))
    (hhandler : Sends (fun fuel => handler fuel info) t r) :
    Sends (onPanic handler x) (s++t) r := by
  intro incoming hfair
  obtain ⟨N,j,sent,hsent,hrun⟩ := hx incoming hfair
  obtain ⟨M,k,sent',hsent',hrun'⟩ := hhandler _ (fair_shift incoming hfair j)
  refine ⟨max N M,j+k,sent++sent',drives_append s t sent sent' hsent hsent',?_⟩
  intro fuel hfuel trace
  rw [onPanic, hrun fuel (by omega), farewell, List.append_nil]
  refine (hrun' fuel (by omega) _).trans ?_
  simp only [Nat.add_assoc, List.append_assoc]

theorem sends_calm {α : Type} (handler : ℕ → List Char → Prog α) (x : ℕ → Prog α) (s : List Char)
    (r : Except Ending α) (hx : Sends x s r) (hr : ∀ info, r ≠ .error (.panicked info)) :
    Sends (onPanic handler x) s r := by
  intro incoming hfair
  obtain ⟨N,j,sent,hsent,hrun⟩ := hx incoming hfair
  refine ⟨N,j,sent,hsent,?_⟩
  intro fuel hfuel trace
  rw [onPanic, hrun fuel hfuel trace]
  cases r with
  | ok a => rfl
  | error e =>
    cases e with
    | panicked info => exact absurd rfl (hr info)
    | exited code => rfl

/-- QEMU ends exactly with the program. -/
theorem sends_status {α : Type} (x : ℕ → Prog α) (s : List Char) (r : Except Ending α)
    (hx : Sends x s r) (incoming : ℕ → UInt8) (hfair : Fair incoming) :
    ∃ N bus, (∀ fuel ≥ N, x fuel ⟨incoming,[]⟩ = .ok (r,bus)) ∧
      received 0x3f8 bus.trace = s.map (fun c => UInt8.ofNat c.toNat) ∧
      qemuStatus bus.trace = (farewell r).findSome? exitStatus := by
  obtain ⟨M,bus,hbus,hreceived⟩ := sends_received x s r hx incoming hfair
  obtain ⟨N,j,sent,hsent,hrun⟩ := hx incoming hfair
  have hquiet : sent.findSome? exitStatus = none := by
    rw [List.findSome?_eq_none_iff]
    intro a ha
    cases a with
    | read p d => rfl
    | write p d =>
      rw [hsent.writes p d ha]
      rfl
  have hsame := (hrun (max M N) (by omega) []).symm.trans (hbus (max M N) (by omega))
  simp only [List.nil_append, Except.ok.injEq, Prod.mk.injEq, true_and] at hsame
  refine ⟨M,bus,hbus,hreceived,?_⟩
  rw [← hsame, qemuStatus, List.findSome?_append, hquiet, Option.none_or]

theorem exit_verdict (α : Type) (code : QemuExitCode) :
    ∃ status, (farewell (.error (.exited code) : Except Ending α)).findSome? exitStatus =
      some status ∧ launchQemu status = verdict code := by
  refine ⟨code.asU8.toNat <<< 1 ||| 1,rfl,?_⟩
  cases code
  all_goals rfl

end Wasabi.Qemu.Launch
