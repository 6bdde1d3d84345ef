import Wasabi.Serial.Port
import Wasabi.Support.Templates
import Wasabi.Support.DecimalText
import Wasabi.Support.HexText

/-!
# The console

Everything the kernel prints goes through `global_print` to COM1. A program
that prints ends in a value, in a panic or in the exit of the machine. What
it sends is a text, whatever the device makes it wait for, and the texts of
programs in sequence are joined.
-/

set_option autoImplicit false

namespace Wasabi.Serial.Console
open Wasabi.Rust Wasabi.Outcome Wasabi.PolledOutput Wasabi.Serial.Port
open Wasabi.Templates Wasabi.DecimalText Wasabi.HexText

inductive QemuExitCode where
  | success
  | fail
  deriving DecidableEq

/-- `exit_code as u8`. -/
def QemuExitCode.asU8 : QemuExitCode → UInt8
  | .success => 1
  | .fail => 2

/-- How a program ends that does not return: with the text of a `PanicInfo`,
or with a write to the exit device. -/
inductive Ending where
  | panicked (info : List Char)
  | exited (code : QemuExitCode)
  deriving DecidableEq

abbrev Prog (α : Type) := Stateful Ending Bus Fault α

/-- `Result::unwrap` for a `fmt::Result`. -/
def unwrapWrite (x : Io Unit) : Prog Unit := fun bus => do
  match ← x bus with
  | (.ok (),bus) => pure (.ok (),bus)
  | (.error (),bus) => pure (.error (.panicked
      "called `Result::unwrap()` on an `Err` value: Error".toList),bus)

/-- The processor is halted behind the write, and the machine ends with it. -/
def exitQemu {α : Type} (code : QemuExitCode) : Prog α := fun bus =>
  .ok (.error (.exited code),{bus with trace := bus.trace++[.write 0x4 code.asU8]})

/-- `fmt::write` passes on the pieces of its arguments one by one. -/
def writeFmt (writer : SerialPort) (fuel : ℕ) (pieces : List (List Char)) : Prog Unit :=
  unwrapWrite (pieces.forM (writeStr writer fuel))

def globalPrint (fuel : ℕ) (pieces : List (List Char)) : Prog Unit :=
  writeFmt SerialPort.default fuel pieces

def println (fuel : ℕ) (args : List (List Char)) : Prog Unit := globalPrint fuel (args++[['\n']])

inductive Level where
  | info
  | warn
  | error
  deriving DecidableEq

def Level.tag : Level → List Char
  | .info => "[INFO] ".toList
  | .warn => "[WARN] ".toList
  | .error => "[ERROR] ".toList

/-- `info!`, `warn!` and `error!`. -/
def log (fuel : ℕ) (level : Level) (file : List Char) (line : ℕ) (args : List (List Char)) :
    Prog Unit :=
  globalPrint fuel ([level.tag,file,[':'],leftAligned 3 line,[':',' ']]++args++[['\n']])

/-- The transmitter becomes empty again and again. -/
def Fair (incoming : ℕ → UInt8) : Prop := ∀ i, ∃ k, Ready (incoming (i+k))

/-- The last access of a program that ends so. -/
def farewell {α : Type} : Except Ending α → List (Access ℕ UInt8)
  | .ok _ => []
  | .error (.panicked _) => []
  | .error (.exited code) => [.write 0x4 code.asU8]

/-- On every fair device the program sends the text and ends as given. -/
def Sends {α : Type} (x : ℕ → Prog α) (text : List Char) (r : Except Ending α) : Prop :=
  ∀ incoming, Fair incoming → ∃ N j sent, Drives 0x3f8 text sent ∧ ∀ fuel ≥ N, ∀ trace,
    x fuel ⟨incoming,trace⟩ =
      .ok (r,⟨fun i => incoming (j+i),trace++(sent++farewell r)⟩)

theorem fair_shift (incoming : ℕ → UInt8) (h : Fair incoming) (j : ℕ) :
    Fair (fun i => incoming (j+i)) := by
  intro i
  obtain ⟨k,hk⟩ := h (j+i)
  refine ⟨k,?_⟩
  change Ready (incoming (j+(i+k)))
  rwa [← Nat.add_assoc]

theorem drives_append (s t : List Char) (sent sent' : List (Access ℕ UInt8))
    (h : Drives 0x3f8 s sent) (h' : Drives 0x3f8 t sent') :
    Drives 0x3f8 (s++t) (sent++sent') := by
  rw [Drives, List.map_append]
  exact polled_append _ _ _ _ _ _ _ h h'

/-- Characters of a byte, which survive `c as u8`. -/
def Narrow (s : List Char) : Prop := ∀ c ∈ s, c.toNat < 256

instance (s : List Char) : Decidable (Narrow s) := List.decidableBAll _ s

theorem narrow_append (s t : List Char) : Narrow (s++t) ↔ Narrow s ∧ Narrow t :=
  List.forall_mem_append

theorem decimal_narrow (c : Char) (h : isDecimal c = true) : c.toNat < 256 := by
  rw [isDecimal, Bool.or_eq_true, decide_eq_true_eq] at h
  rcases h with h | rfl
  · simp [Char.isDigit] at h
    have hle := h.2
    rw [UInt32.le_iff_toNat_le] at hle
    exact hle.trans_lt (by decide)
  · decide

theorem hexDigit_narrow (c : Char) (h : isHexDigit c = true) : c.toNat < 256 := by
  rw [isHexDigit, toDigit] at h
  split_ifs at h with h1 h2 h3
  · exact lt_of_le_of_lt h1.2 (by decide)
  · exact lt_of_le_of_lt h2.2 (by decide)
  · exact lt_of_le_of_lt h3.2 (by decide)
  · cases h

theorem isUpper_narrow (c : Char) (h : c.isUpper = true) : c.toNat < 256 := by
  have hle : c.val ≤ 'Z'.val := (of_decide_eq_true h).2
  rw [UInt32.le_iff_toNat_le] at hle
  exact hle.trans_lt (by decide)

theorem fill_narrow (last : List Char) (slots : List Slot) (vs : List (List Char))
    (hlast : Narrow last) (hslots : ∀ slot ∈ slots, Narrow slot.1) (hvs : ∀ v ∈ vs, Narrow v) :
    Narrow (fill last slots vs) := by
  intro c hc
  rcases fill_mem _ _ _ c hc with h | ⟨slot,hslot,h⟩ | ⟨v,hv,h⟩
  · exact hlast c h
  · exact hslots slot hslot c h
  · exact hvs v hv c h

theorem bytes_inj (s t : List Char) (hs : Narrow s) (ht : Narrow t)
    (h : s.map (fun c => UInt8.ofNat c.toNat) = t.map (fun c => UInt8.ofNat c.toNat)) : s = t := by
  induction s generalizing t with
  | nil => exact (List.map_eq_nil_iff.mp h.symm).symm
  | cons c s ih =>
    cases t with
    | nil => cases h
    | cons d t =>
      obtain ⟨hfirst,hrest⟩ := List.cons.inj h
      have hcode := congrArg UInt8.toNat hfirst
      rw [UInt8.toNat_ofNat_of_lt' (hs c List.mem_cons_self),
        UInt8.toNat_ofNat_of_lt' (ht d List.mem_cons_self)] at hcode
      rw [Char.ext_iff.mpr (UInt32.toNat_inj.mp hcode),
        ih t (fun c hc => hs c (List.mem_cons_of_mem _ hc))
          (fun c hc => ht c (List.mem_cons_of_mem _ hc)) hrest]

/-- The write path of one piece, by induction on its characters. -/
theorem sendNext_fair (s : List Char) (incoming : ℕ → UInt8) (h : Fair incoming) :
    ∃ N j sent, Drives 0x3f8 s sent ∧ ∀ fuel ≥ N, ∀ trace,
      sendNext SerialPort.default fuel s.length s ⟨incoming,trace⟩ =
        .ok (.ok (),⟨fun i => incoming (j+i),trace++sent⟩) := by
  induction s generalizing incoming with
  | nil =>
    refine ⟨0,0,[],polled_nil _ _ _,?_⟩
    intro fuel _ trace
    simp only [Nat.zero_add, List.append_nil]
    rfl
  | cons c s ih =>
    have hex : ∃ k, Ready (incoming k) := by
      obtain ⟨k,hk⟩ := h 0
      exact ⟨k,by rwa [Nat.zero_add] at hk⟩
    have hbusy : ∀ i < Nat.find hex, ¬ Ready (incoming i) := fun i hi => Nat.find_min hex hi
    obtain ⟨N,j,sent,hsent,hrun⟩ := ih _ (fair_shift incoming h (Nat.find hex+1))
    have hfirst := polled_write Ready (0x3f8+5) 0x3f8 ((List.range (Nat.find hex)).map incoming)
      (incoming (Nat.find hex)) (UInt8.ofNat c.toNat) (Nat.find_spec hex)
    refine ⟨max N (Nat.find hex+1),Nat.find hex+1+j,_,polled_append _ _ _ _ _ _ _ hfirst hsent,?_⟩
    intro fuel hfuel trace
    have hnext : (observe (fun _ => unwrap (c::s).head?) : Io Char) ⟨incoming,trace⟩ =
      .ok (.ok c,⟨incoming,trace⟩) := rfl
    rw [List.length_cons, sendNext, run_bind _ _ _ _ _ hnext,
      run_bind _ _ _ _ _ (sendChar_runs SerialPort.default (by decide) _ fuel ⟨incoming,trace⟩ c
        hbusy (Nat.find_spec hex) (by omega)), List.tail_cons, hrun fuel (by omega),
      List.append_assoc]
    simp only [Nat.add_assoc]
    rfl

section Rules
variable {α β : Type}

theorem sends_pure (a : α) : Sends (fun _ => pure a) [] (.ok a) := by
  intro incoming _
  refine ⟨0,0,[],polled_nil _ _ _,?_⟩
  intro fuel _ trace
  simp only [Nat.zero_add, farewell, List.append_nil]
  rfl

theorem sends_observe (a : α) (x : Eval α) (h : x = .ok a) :
    Sends (fun _ => (observe (fun _ => x) : Prog α)) [] (.ok a) := by
  subst h
  exact sends_pure a

theorem sends_panic (info : List Char) :
    Sends (fun _ => (throw (.panicked info) : Prog α)) [] (.error (.panicked info)) := by
  intro incoming _
  refine ⟨0,0,[],polled_nil _ _ _,?_⟩
  intro fuel _ trace
  simp only [Nat.zero_add, farewell, List.append_nil]
  rfl

theorem sends_exit (code : QemuExitCode) : Sends (fun _ => (exitQemu code : Prog α)) []
    (.error (.exited code)) := by
  intro incoming _
  refine ⟨0,0,[],polled_nil _ _ _,?_⟩
  intro fuel _ trace
  simp only [Nat.zero_add, List.nil_append]
  rfl

theorem sends_bind (x : ℕ → Prog α) (f : ℕ → α → Prog β) (s t : List Char) (a : α)
    (r : Except Ending β) (hx : Sends x s (.ok a)) (hf : Sends (fun fuel => f fuel a) t r) :
    Sends (fun fuel => x fuel >>= f fuel) (s++t) r := by
  intro incoming hfair
  obtain ⟨N,j,sent,hsent,hrun⟩ := hx incoming hfair
  obtain ⟨M,k,sent',hsent',hrun'⟩ := hf _ (fair_shift incoming hfair j)
  refine ⟨max N M,j+k,sent++sent',drives_append s t sent sent' hsent hsent',?_⟩
  intro fuel hfuel trace
  have hfirst := hrun fuel (by omega) trace
  rw [farewell, List.append_nil] at hfirst
  refine (run_bind _ (f fuel) _ _ a hfirst).trans ((hrun' fuel (by omega) _).trans ?_)
  simp only [Nat.add_assoc, List.append_assoc]

theorem sends_seq (x : ℕ → Prog Unit) (y : ℕ → Prog β) (s t : List Char) (r : Except Ending β)
    (hx : Sends x s (.ok ())) (hy : Sends y t r) :
    Sends (fun fuel => x fuel >>= fun _ => y fuel) (s++t) r :=
  sends_bind x (fun fuel _ => y fuel) s t () r hx hy

/-- What comes behind an ending is not executed. -/
theorem sends_ended (x : ℕ → Prog α) (f : ℕ → α → Prog β) (s : List Char) (e : Ending)
    (hx : Sends x s (.error e)) : Sends (fun fuel => x fuel >>= f fuel) s (.error e) := by
  intro incoming hfair
  obtain ⟨N,j,sent,hsent,hrun⟩ := hx incoming hfair
  refine ⟨N,j,sent,hsent,?_⟩
  intro fuel hfuel trace
  have hended := run_bind_error _ (f fuel) _ _ e (hrun fuel hfuel trace)
  cases e
  all_goals exact hended

/-- Programs that are the same with enough fuel. -/
theorem sends_congr (x y : ℕ → Prog α) (M : ℕ) (h : ∀ fuel ≥ M, x fuel = y fuel) (s : List Char)
    (r : Except Ending α) (hy : Sends y s r) : Sends x s r := by
  intro incoming hfair
  obtain ⟨N,j,sent,hsent,hrun⟩ := hy incoming hfair
  refine ⟨max M N,j,sent,hsent,?_⟩
  intro fuel hfuel trace
  rw [h fuel (by omega), hrun fuel (by omega)]

theorem sends_forM (f : ℕ → α → Prog Unit) (text : α → List Char) (l : List α)
    (h : ∀ a ∈ l, Sends (fun fuel => f fuel a) (text a) (.ok ())) :
    Sends (fun fuel => l.forM (f fuel)) (l.flatMap text) (.ok ()) := by
  induction l with
  | nil => exact sends_pure ()
  | cons a l ih =>
    have hrest := ih (fun b hb => h b (List.mem_cons_of_mem a hb))
    exact sends_seq _ _ _ _ _ (h a List.mem_cons_self) hrest

end Rules

/-- Whatever port the writer is of. -/
theorem sends_write (writer : SerialPort) (pieces : List (List Char)) :
    Sends (fun fuel => writeFmt writer fuel pieces) pieces.flatten (.ok ()) := by
  have hpieces : ∀ incoming, Fair incoming → ∃ N j sent, Drives 0x3f8 pieces.flatten sent ∧
      ∀ fuel ≥ N, ∀ trace, pieces.forM (writeStr writer fuel) ⟨incoming,trace⟩ =
        .ok (.ok (),⟨fun i => incoming (j+i),trace++sent⟩) := by
    induction pieces with
    | nil =>
      intro incoming _
      refine ⟨0,0,[],polled_nil _ _ _,?_⟩
      intro fuel _ trace
      simp only [Nat.zero_add, List.append_nil]
      rfl
    | cons s pieces ih =>
      intro incoming hfair
      obtain ⟨N,j,sent,hsent,hrun⟩ := sendNext_fair s incoming hfair
      obtain ⟨M,k,sent',hsent',hrun'⟩ := ih _ (fair_shift incoming hfair j)
      refine ⟨max N M,j+k,sent++sent',drives_append s _ sent sent' hsent hsent',?_⟩
      intro fuel hfuel trace
      have hfirst : writeStr writer fuel s ⟨incoming,trace⟩ =
          .ok (.ok (),⟨fun i => incoming (j+i),trace++sent⟩) := hrun fuel (by omega) trace
      refine (run_bind _ (fun _ => pieces.forM (writeStr writer fuel)) _ _ ()
        hfirst).trans ?_
      rw [hrun' fuel (by omega), List.append_assoc]
      simp only [Nat.add_assoc]
  intro incoming hfair
  obtain ⟨N,j,sent,hsent,hrun⟩ := hpieces incoming hfair
  refine ⟨N,j,sent,hsent,?_⟩
  intro fuel hfuel trace
  change unwrapWrite _ _ = _
  rw [unwrapWrite, hrun fuel hfuel trace, farewell, List.append_nil]
  rfl

theorem sends_print (pieces : List (List Char)) :
    Sends (fun fuel => globalPrint fuel pieces) pieces.flatten (.ok ()) :=
  sends_write SerialPort.default pieces

theorem sends_println (args : List (List Char)) :
    Sends (fun fuel => println fuel args) (args.flatten++['\n']) (.ok ()) := by
  have h := sends_print (args++[['\n']])
  rwa [List.flatten_append, List.flatten_singleton] at h

/-- What is sent arrives. -/
theorem sends_received {α : Type} (x : ℕ → Prog α) (s : List Char) (r : Except Ending α)
    (hx : Sends x s r) (incoming : ℕ → UInt8) (hfair : Fair incoming) :
    ∃ N bus, (∀ fuel ≥ N, x fuel ⟨incoming,[]⟩ = .ok (r,bus)) ∧
      received 0x3f8 bus.trace = s.map (fun c => UInt8.ofNat c.toNat) := by
  obtain ⟨N,j,sent,hsent,hrun⟩ := hx incoming hfair
  have hlast : received 0x3f8 (farewell r) = [] := by
    cases r with
    | ok a => rfl
    | error e =>
      cases e
      all_goals rfl
  refine ⟨N,_,fun fuel hfuel => hrun fuel hfuel [],?_⟩
  rw [List.nil_append, received, List.filterMap_append, ← received, ← received, hlast,
    polled_received _ _ _ _ _ hsent, List.append_nil]

end Wasabi.Serial.Console
