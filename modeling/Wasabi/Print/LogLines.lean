import Wasabi.Serial.Console

/-!
# Log lines

A line of the log names its level, its place in the source and a message.
What arrives at the other end of COM1 determines the lines that were logged,
however often the device made the processor wait.
-/

set_option autoImplicit false

namespace Wasabi.Print.LogLines
open Wasabi.Outcome Wasabi.PolledOutput Wasabi.Serial.Port Wasabi.Serial.Console
open Wasabi.Templates Wasabi.DecimalText

structure Line where
  level : Level
  file : List Char
  line : ℕ
  message : List Char
  deriving DecidableEq

def Line.log (fuel : ℕ) (e : Line) : Prog Unit :=
  Serial.Console.log fuel e.level e.file e.line [e.message]

def logAll (fuel : ℕ) (es : List Line) : Prog Unit := es.forM (Line.log fuel)

/-- Paths without a colon and messages of one line, in characters of a byte. -/
structure Line.Plain (e : Line) : Prop where
  file : ':' ∉ e.file ∧ Narrow e.file
  message : '\n' ∉ e.message ∧ Narrow e.message

def levelName : Level → List Char
  | .info => "INFO".toList
  | .warn => "WARN".toList
  | .error => "ERROR".toList

def slots : List Slot :=
  [("[".toList,Char.isUpper),("] ".toList,(· ≠ ':')),(":".toList,isDecimal),
    (": ".toList,(· ≠ '\n'))]

def Line.values (e : Line) : List (List Char) :=
  [levelName e.level,e.file,leftAligned 3 e.line,e.message]

def Line.text (e : Line) : List Char := fill ['\n'] slots e.values

theorem level_tag (level : Level) : level.tag = "[".toList++(levelName level++"] ".toList) := by
  cases level
  all_goals rfl

theorem name_inj (level level' : Level) (h : levelName level = levelName level') :
    level = level' := by
  revert h
  cases level <;> cases level' <;> decide

theorem name_isUpper (level : Level) : ∀ c ∈ levelName level, c.isUpper = true := by
  apply List.all_eq_true.mp
  cases level
  all_goals decide

theorem line_fits (e : Line) (h : e.Plain) : Fits slots e.values := by
  refine .cons (name_isUpper e.level) (.cons ?_ (.cons (left_isDecimal 3 e.line) (.cons ?_ .nil)))
  · exact fun c hc => decide_eq_true (fun he => h.file.1 (he ▸ hc))
  · exact fun c hc => decide_eq_true (fun he => h.message.1 (he ▸ hc))

theorem values_inj (e e' : Line) (h : e.values = e'.values) : e = e' := by
  obtain ⟨level,file,line,message⟩ := e
  obtain ⟨level',file',line',message'⟩ := e'
  simp only [Line.values, List.cons.injEq, and_true] at h
  obtain ⟨hlevel,rfl,hline,rfl⟩ := h
  have hsame := congrArg fromDecimal hline
  rw [fromDecimal_left, fromDecimal_left] at hsame
  rw [name_inj level level' hlevel, hsame]

/-- What stands before the message. -/
def heading (level : Level) (file : List Char) (line : ℕ) : List Char :=
  level.tag++file++[':']++leftAligned 3 line++[':',' ']

/-- The text of a line whose message is in parts. -/
def logText (level : Level) (file : List Char) (line : ℕ) (args : List (List Char)) :
    List Char :=
  heading level file line++(args.flatten++['\n'])

theorem text_logText (e : Line) : e.text = logText e.level e.file e.line [e.message] := by
  simp [Line.text, Line.values, slots, fill, logText, heading, level_tag]

theorem heading_narrow (level : Level) (file : List Char) (line : ℕ) (h : Narrow file) :
    Narrow (heading level file line) := by
  have hlevel : Narrow level.tag := by
    cases level
    all_goals decide
  simp only [heading, narrow_append]
  exact ⟨⟨⟨⟨hlevel,h⟩,by decide⟩,fun c hc => decimal_narrow c (left_isDecimal 3 line c hc)⟩,
    by decide⟩

theorem logText_narrow (level : Level) (file : List Char) (line : ℕ) (args : List (List Char))
    (hfile : Narrow file) (h : ∀ arg ∈ args, Narrow arg) :
    Narrow (logText level file line args) := by
  rw [logText, narrow_append, narrow_append]
  refine ⟨heading_narrow level file line hfile,?_,by decide⟩
  intro c hc
  obtain ⟨arg,harg,hc⟩ := List.mem_flatten.mp hc
  exact h arg harg c hc

theorem text_narrow (e : Line) (h : e.Plain) : Narrow e.text := by
  rw [text_logText]
  exact logText_narrow _ _ _ _ h.file.2 (List.forall_mem_singleton.mpr h.message.2)

theorem sends_log (level : Level) (file : List Char) (line : ℕ) (args : List (List Char)) :
    Sends (fun fuel => log fuel level file line args)
      (logText level file line args) (.ok ()) := by
  have h := sends_print ([level.tag,file,[':'],leftAligned 3 line,[':',' ']]++args++[['\n']])
  have htext : ([level.tag,file,[':'],leftAligned 3 line,[':',' ']]++args++[['\n']]).flatten =
      logText level file line args := by
    simp [logText, heading]
  rwa [htext] at h

theorem sends_line (e : Line) : Sends (fun fuel => e.log fuel) e.text (.ok ()) := by
  have h := sends_log e.level e.file e.line [e.message]
  rwa [← text_logText] at h

theorem sends_all (es : List Line) :
    Sends (fun fuel => logAll fuel es) (es.flatMap Line.text) (.ok ()) :=
  sends_forM Line.log Line.text es (fun e _ => sends_line e)

/-- The lines of plain text are determined by what is received. -/
theorem text_determines (es es' : List Line) (h : ∀ e ∈ es, e.Plain) (h' : ∀ e ∈ es', e.Plain)
    (heq : es.flatMap Line.text = es'.flatMap Line.text) : es = es' := by
  have hvalues : es.map Line.values = es'.map Line.values := by
    have hlines : (es.map Line.values).flatMap (fill ['\n'] slots)++[] =
        (es'.map Line.values).flatMap (fill ['\n'] slots)++[] := by
      rw [List.flatMap_map, List.flatMap_map, List.append_nil, List.append_nil]
      exact heq
    refine (fills_split ['\n'] slots (by decide) '[' (by decide) _ _ ?_ ?_ [] [] (by decide)
      (by decide) hlines).1
    · intro vs hvs
      obtain ⟨e,he,rfl⟩ := List.mem_map.mp hvs
      exact line_fits e (h e he)
    · intro vs hvs
      obtain ⟨e,he,rfl⟩ := List.mem_map.mp hvs
      exact line_fits e (h' e he)
  exact List.map_injective_iff.mpr values_inj hvalues

/-- Logged lines can be read back from COM1. -/
theorem log_determines (es es' : List Line) (h : ∀ e ∈ es, e.Plain) (h' : ∀ e ∈ es', e.Plain)
    (incoming incoming' : ℕ → UInt8) (hfair : Fair incoming) (hfair' : Fair incoming') :
    ∃ N bus bus', ∀ fuel ≥ N, logAll fuel es ⟨incoming,[]⟩ = .ok (.ok (),bus) ∧
      logAll fuel es' ⟨incoming',[]⟩ = .ok (.ok (),bus') ∧
      (received 0x3f8 bus.trace = received 0x3f8 bus'.trace ↔ es = es') := by
  obtain ⟨N,j,sent,hsent,hrun⟩ := sends_all es incoming hfair
  obtain ⟨M,k,sent',hsent',hrun'⟩ := sends_all es' incoming' hfair'
  refine ⟨max N M,_,_,fun fuel hfuel => ⟨hrun fuel (by omega) [],hrun' fuel (by omega) [],?_⟩⟩
  simp only [farewell, List.append_nil, List.nil_append]
  rw [polled_received _ _ _ _ _ hsent, polled_received _ _ _ _ _ hsent']
  constructor
  · intro heq
    apply text_determines es es' h h'
    apply bytes_inj _ _ _ _ heq
    · intro c hc
      obtain ⟨e,he,hc⟩ := List.mem_flatMap.mp hc
      exact text_narrow e (h e he) c hc
    · intro c hc
      obtain ⟨e,he,hc⟩ := List.mem_flatMap.mp hc
      exact text_narrow e (h' e he) c hc
  · rintro rfl
    rfl

/-- The end of a boot. -/
def bootLines : List Line :=
  [⟨.info,"src/main.rs".toList,111,"Exception initialized!".toList⟩,
    ⟨.error,"src/x86.rs".toList,588,"BreakPoint".toList⟩,
    ⟨.info,"src/main.rs".toList,115,"Execution continued".toList⟩]

/-- The same with another level in its last line. -/
def warnedLines : List Line :=
  bootLines.take 2++[⟨.warn,"src/main.rs".toList,115,"Execution continued".toList⟩]

theorem log_determines_level :
    ∃ N bus bus', ∀ fuel ≥ N, logAll fuel bootLines ⟨fun _ => 0x20,[]⟩ = .ok (.ok (),bus) ∧
      logAll fuel warnedLines ⟨fun i => if i%3 = 0 then 0x60 else 0,[]⟩ = .ok (.ok (),bus') ∧
      (received 0x3f8 bus.trace = received 0x3f8 bus'.trace ↔ bootLines = warnedLines) := by
  refine log_determines _ _ ?_ ?_ _ _ (fun i => ⟨0,by decide⟩) ?_
  · simp only [bootLines, List.forall_mem_cons]
    exact ⟨⟨by decide,by decide⟩,⟨by decide,by decide⟩,⟨by decide,by decide⟩,
      fun e he => by cases he⟩
  · simp only [warnedLines, bootLines, List.take_succ_cons, List.take_zero, List.cons_append,
      List.nil_append, List.forall_mem_cons]
    exact ⟨⟨by decide,by decide⟩,⟨by decide,by decide⟩,⟨by decide,by decide⟩,
      fun e he => by cases he⟩
  · intro i
    refine ⟨2*i,?_⟩
    simp only
    rw [if_pos (by omega)]
    decide

end Wasabi.Print.LogLines
