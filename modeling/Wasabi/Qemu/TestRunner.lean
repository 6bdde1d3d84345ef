import Wasabi.Qemu.Launch

/-!
# The test runner

Tests are run in sequence. A test that panics leaves its line of success out
and ends the machine through the panic handler; behind the last test the
machine ends with success. So the verdict of the script depends on the first
test that does not return, if there is one, and on no other.
-/

set_option autoImplicit false

namespace Wasabi.Qemu.TestRunner
open Wasabi.PolledOutput Wasabi.Serial.Port Wasabi.Serial.Console Wasabi.Qemu.Launch
open Wasabi.DecimalText

structure Testable where
  typeName : List Char
  body : ℕ → Prog Unit

def Testable.running (self : Testable) : List (List Char) :=
  ["[RUNNING] >>> ".toList,self.typeName,['\n']]

def Testable.pass (self : Testable) : List (List Char) :=
  ["[PASS] <<< ".toList,self.typeName,['\n']]

def Testable.run (self : Testable) (writer : SerialPort) (fuel : ℕ) : Prog Unit := do
  writeFmt writer fuel self.running
  self.body fuel
  writeFmt writer fuel self.pass

def opening (count : ℕ) : List (List Char) :=
  ["Running ".toList,decimal count," tests...".toList,['\n']]

def closing (count : ℕ) : List (List Char) :=
  ["Completed ".toList,decimal count," tests...".toList,['\n']]

def testRunner (tests : List Testable) (fuel : ℕ) : Prog Empty := do
  let sw := SerialPort.newForCom1
  writeFmt sw fuel (opening tests.length)
  tests.forM (fun test => test.run sw fuel)
  writeFmt sw fuel (closing tests.length)
  exitQemu .success

def panicked (info : List Char) : List (List Char) := ["PANIC during test: ".toList,info,['\n']]

/-- The panic handler of the test build. -/
def testPanicHandler (fuel : ℕ) (info : List Char) : Prog Empty := do
  let sw := SerialPort.newForCom1
  writeFmt sw fuel (panicked info)
  exitQemu .fail

def runUnitTests (tests : List Testable) : ℕ → Prog Empty :=
  onPanic testPanicHandler (testRunner tests)

/-- A test with what it does: the text that it prints and how it ends. -/
structure Conduct where
  test : Testable
  text : List Char
  ending : Except Ending Unit

/-- The part of the log that is about the test. -/
def Conduct.transcript (run : Conduct) : List Char :=
  match run.ending with
  | .ok () => run.test.running.flatten++(run.text++run.test.pass.flatten)
  | .error _ => run.test.running.flatten++run.text

/-- The log of the tests, and how they end together. -/
def conducted : List Conduct → List Char × Except Ending Unit
  | [] => ([],.ok ())
  | run::runs =>
    match run.ending with
    | .ok () => (run.transcript++(conducted runs).1,(conducted runs).2)
    | .error e => (run.transcript,.error e)

/-- What is printed behind the tests, and the last exit code. -/
def concluded (count : ℕ) : Except Ending Unit → List Char × QemuExitCode
  | .ok () => ((closing count).flatten,.success)
  | .error (.panicked info) => ((panicked info).flatten,.fail)
  | .error (.exited code) => ([],code)

def report (runs : List Conduct) : List Char × QemuExitCode :=
  let (text,ending) := conducted runs
  let (last,code) := concluded runs.length ending
  ((opening runs.length).flatten++(text++last),code)

theorem sends_run (run : Conduct) (writer : SerialPort)
    (h : Sends run.test.body run.text run.ending) :
    Sends (fun fuel => run.test.run writer fuel) run.transcript run.ending := by
  have hstart := sends_write writer run.test.running
  have hpass := sends_write writer run.test.pass
  rw [Conduct.transcript]
  cases hend : run.ending with
  | error e =>
    rw [hend] at h
    have hrest := sends_ended run.test.body (fun fuel _ => writeFmt writer fuel run.test.pass)
      run.text e h
    exact sends_bind _ (fun fuel _ => run.test.body fuel >>= fun _ =>
      writeFmt writer fuel run.test.pass) _ _ () _ hstart hrest
  | ok u =>
    rw [hend] at h
    have hrest := sends_bind run.test.body (fun fuel _ => writeFmt writer fuel run.test.pass) _ _ u
      _ h hpass
    exact sends_bind _ (fun fuel _ => run.test.body fuel >>= fun _ =>
      writeFmt writer fuel run.test.pass) _ _ () _ hstart hrest

/-- By induction on the tests: the first that does not return is the last to run. -/
theorem sends_runs (writer : SerialPort) (runs : List Conduct)
    (h : ∀ run ∈ runs, Sends run.test.body run.text run.ending) :
    Sends (fun fuel => (runs.map Conduct.test).forM (fun test => test.run writer fuel))
      (conducted runs).1 (conducted runs).2 := by
  induction runs with
  | nil => exact sends_pure ()
  | cons run runs ih =>
    have hrun := sends_run run writer (h run List.mem_cons_self)
    have hrest := ih (fun r hr => h r (List.mem_cons_of_mem run hr))
    rw [conducted]
    cases hend : run.ending with
    | error e =>
      rw [hend] at hrun
      exact sends_ended _ (fun fuel _ =>
        (runs.map Conduct.test).forM (fun test => test.run writer fuel)) _ e hrun
    | ok u =>
      rw [hend] at hrun
      exact sends_bind _ (fun fuel _ =>
        (runs.map Conduct.test).forM (fun test => test.run writer fuel)) _ _ u _ hrun hrest

/-- The runner with its panic handler always ends the machine. -/
theorem sends_report (runs : List Conduct)
    (h : ∀ run ∈ runs, Sends run.test.body run.text run.ending) :
    Sends (runUnitTests (runs.map Conduct.test)) (report runs).1
      (.error (.exited (report runs).2)) := by
  let sw := SerialPort.newForCom1
  let tests := runs.map Conduct.test
  let rest : ℕ → Prog Empty := fun fuel => writeFmt sw fuel (closing tests.length) >>= fun _ =>
    exitQemu .success
  have hcount : tests.length = runs.length := List.length_map _
  have hstart := sends_write sw (opening tests.length)
  have htests := sends_runs sw runs h
  have hall : ∀ text r, Sends (fun fuel => tests.forM (fun test => test.run sw fuel) >>= fun _ =>
      rest fuel) text r → Sends (testRunner tests) ((opening tests.length).flatten++text) r :=
    fun text r hrest => sends_bind _ (fun fuel _ => tests.forM (fun test => test.run sw fuel) >>=
      fun _ => rest fuel) _ _ () _ hstart hrest
  change Sends (onPanic testPanicHandler (testRunner tests)) _ _
  cases hend : (conducted runs).2 with
  | ok u =>
    rw [hend] at htests
    have hdone := sends_bind _ (fun _ _ => (exitQemu .success : Prog Empty)) _ _ () _
      (sends_write sw (closing tests.length)) (sends_exit .success)
    have hrest := sends_bind _ (fun fuel _ => rest fuel) _ _ u _ htests hdone
    have hquiet := sends_calm testPanicHandler _ _ _ (hall _ _ hrest)
      (fun info hinfo => by cases hinfo)
    simpa only [report, hend, concluded, hcount, List.append_nil] using hquiet
  | error e =>
    rw [hend] at htests
    have hrest := sends_ended _ (fun fuel _ => rest fuel) _ e htests
    cases e with
    | panicked info =>
      have hhandler := sends_bind _ (fun _ _ => (exitQemu .fail : Prog Empty)) _ _ () _
        (sends_write sw (panicked info)) (sends_exit .fail)
      have hpanic := sends_onPanic testPanicHandler (testRunner tests) _ _ info _ (hall _ _ hrest)
        hhandler
      simpa only [report, hend, concluded, hcount, List.append_nil, List.append_assoc] using hpanic
    | exited code =>
      have hquiet := sends_calm testPanicHandler _ _ _ (hall _ _ hrest)
        (fun info hinfo => by cases hinfo)
      simpa only [report, hend, concluded, hcount, List.append_nil] using hquiet

/-- The first test that does not return, if there is one, ends the machine with success. -/
def Passing (runs : List Conduct) : Prop :=
  ∀ before run rest, runs = before++run::rest → (∀ r ∈ before, r.ending = .ok ()) →
    run.ending = .ok () ∨ run.ending = .error (.exited .success)

theorem passing_nil : Passing [] := by
  intro before run rest h
  simp at h

theorem passing_returned (run : Conduct) (runs : List Conduct) (h : run.ending = .ok ()) :
    Passing (run::runs) ↔ Passing runs := by
  constructor
  · intro hp before r rest heq hbefore
    refine hp (run::before) r rest (by rw [heq, List.cons_append]) ?_
    intro b hb
    rcases List.mem_cons.mp hb with rfl | hb
    · exact h
    · exact hbefore b hb
  · intro hp before r rest heq hbefore
    cases before with
    | nil =>
      obtain ⟨rfl,-⟩ := List.cons.inj heq
      exact Or.inl h
    | cons b before =>
      obtain ⟨rfl,hrest⟩ := List.cons.inj heq
      exact hp before r rest hrest (fun c hc => hbefore c (List.mem_cons_of_mem _ hc))

theorem passing_ended (run : Conduct) (runs : List Conduct) (e : Ending)
    (h : run.ending = .error e) : Passing (run::runs) ↔ e = .exited .success := by
  constructor
  · intro hp
    rcases hp [] run runs rfl (fun _ hr => by cases hr) with hok | hexit
    · rw [h] at hok
      cases hok
    · rw [h] at hexit
      exact Except.error.inj hexit
  · rintro rfl before r rest heq hbefore
    cases before with
    | nil =>
      obtain ⟨rfl,-⟩ := List.cons.inj heq
      exact Or.inr h
    | cons b before =>
      obtain ⟨rfl,-⟩ := List.cons.inj heq
      have hok := hbefore run List.mem_cons_self
      rw [h] at hok
      cases hok

theorem conducted_passing (runs : List Conduct) (count : ℕ) :
    (concluded count (conducted runs).2).2 = .success ↔ Passing runs := by
  induction runs with
  | nil => exact ⟨fun _ => passing_nil,fun _ => rfl⟩
  | cons run runs ih =>
    rw [conducted]
    cases hend : run.ending with
    | ok u => rw [passing_returned run runs hend, ← ih]
    | error e =>
      rw [passing_ended run runs e hend]
      cases e with
      | panicked info => simp [concluded]
      | exited code => simp [concluded]

/-- The machine ends, the log is the report, and the script passes the kernel
if no test fails before the end; otherwise QEMU returns 5. -/
theorem test_run_verdict (runs : List Conduct)
    (h : ∀ run ∈ runs, Sends run.test.body run.text run.ending) (incoming : ℕ → UInt8)
    (hfair : Fair incoming) :
    ∃ N bus code status, (∀ fuel ≥ N, runUnitTests (runs.map Conduct.test) fuel ⟨incoming,[]⟩ =
        .ok (.error (.exited code),bus)) ∧
      received 0x3f8 bus.trace = (report runs).1.map (fun c => UInt8.ofNat c.toNat) ∧
      qemuStatus bus.trace = some status ∧
      (Passing runs → launchQemu status = ("\nPASS\n".toList,0)) ∧
      (¬ Passing runs → launchQemu status = ("\nFAIL: QEMU returned 5\n".toList,1)) := by
  obtain ⟨N,bus,hrun,hlog,hqemu⟩ := sends_status _ _ _ (sends_report runs h) incoming hfair
  obtain ⟨status,hstatus,hverdict⟩ := exit_verdict Empty (report runs).2
  have hcode : (report runs).2 = .success ↔ Passing runs := conducted_passing runs runs.length
  refine ⟨N,bus,_,status,hrun,hlog,hqemu.trans hstatus,?_,?_⟩
  · intro hp
    rw [hverdict, hcode.mpr hp]
    rfl
  · intro hp
    cases hfinal : (report runs).2 with
    | success => exact absurd (hcode.mp hfinal) hp
    | fail =>
      rw [hverdict, hfinal]
      rfl

def greeting : Testable := ⟨"greeting".toList,fun fuel => println fuel ["Hello".toList]⟩

def doomed : Testable := ⟨"doomed".toList,fun _ => throw (.panicked "out of order".toList)⟩

def greetingThenDoomed : List Conduct :=
  [⟨greeting,["Hello".toList,['\n']].flatten,.ok ()⟩,
    ⟨doomed,[],.error (.panicked "out of order".toList)⟩]

theorem test_run_verdict_doomed :
    ∃ N bus code status, (∀ fuel ≥ N,
      runUnitTests (greetingThenDoomed.map Conduct.test) fuel ⟨fun _ => 0x20,[]⟩ =
        .ok (.error (.exited code),bus)) ∧
      received 0x3f8 bus.trace =
        (report greetingThenDoomed).1.map (fun c => UInt8.ofNat c.toNat) ∧
      qemuStatus bus.trace = some status ∧
      (Passing greetingThenDoomed → launchQemu status = ("\nPASS\n".toList,0)) ∧
      (¬ Passing greetingThenDoomed →
        launchQemu status = ("\nFAIL: QEMU returned 5\n".toList,1)) := by
  refine test_run_verdict greetingThenDoomed ?_ _ (fun i => ⟨0,by decide⟩)
  intro run hrun
  rcases List.mem_cons.mp hrun with rfl | hrun
  · exact sends_print ["Hello".toList,['\n']]
  · rw [List.mem_singleton.mp hrun]
    exact sends_panic "out of order".toList

end Wasabi.Qemu.TestRunner
