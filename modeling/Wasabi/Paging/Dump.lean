import Wasabi.Paging.NextLevel
import Wasabi.Serial.Console
import Wasabi.Support.HexText

/-!
# The dump of the page tables

A table is printed with its level, its address and a line for each of its
present entries. The kernel prints the tables behind the first entries from
the root down, and `None` in place of a table at address zero. What arrives at
COM1 determines the present entries of each table that is printed.
-/

set_option autoImplicit false

namespace Wasabi.Paging.Dump
open Wasabi.PolledOutput Wasabi.Serial.Port Wasabi.Serial.Console
open Wasabi.Templates Wasabi.DecimalText Wasabi.HexText
open Wasabi.Paging.PageTable Wasabi.Paging.NextLevel

def isUser (value : ℕ) : Bool := value &&& (1 <<< 2) != 0

/-- `{:#p}`. -/
def pointer (address : ℕ) : List Char := "0x".toList++paddedOf false 16 address

def flags (value : ℕ) : List Char :=
  [if isPresent value then 'P' else 'N',if isWritable value then 'W' else 'R',
    if isUser value then 'U' else 'S']

/-- `Entry::format`. -/
def entryText (level address value : ℕ) : List Char :=
  "L".toList++decimal level++"Entry @ ".toList++pointer address++" \x7b ".toList++
    padded 18 value++" ".toList++flags value++" \x7d".toList

/-- The loop of `Table::format` for one index. -/
def lineText (contents : Contents) (level t : ℕ) (i : Fin 512) : List Char :=
  let e := (contents t i).toNat
  if isPresent e then
    " entry[".toList++rightAligned 3 i++"] = ".toList++entryText level (t+8*i) e++"\n".toList
  else []

/-- `Table::format`. -/
def tableText (contents : Contents) (level t : ℕ) : List Char :=
  "L".toList++decimal level++"Table @ ".toList++pointer t++" \x7b\n".toList++
    (List.finRange 512).flatMap (lineText contents level t)++"\x7d\n".toList

/-- The derived format of an `Option`. -/
def optionText (contents : Contents) (level : ℕ) : Option ℕ → List Char
  | none => "None".toList
  | some t => "Some(".toList++tableText contents level t++")".toList

/-- The part of `efi_main` that looks at the tables of the firmware. -/
def dumpTables (contents : Contents) (cr3 fuel : ℕ) : Prog Unit := do
  println fuel ["cr3 = ".toList,pointer cr3]
  let t := reference cr3
  println fuel [optionText contents 4 t]
  let t := t.bind (fun t => nextLevel contents t 0)
  println fuel [optionText contents 3 t]
  let t := t.bind (fun t => nextLevel contents t 0)
  println fuel [optionText contents 2 t]
  let t := t.bind (fun t => nextLevel contents t 0)
  println fuel [optionText contents 1 t]

/-- The format of a line. -/
def slots : List Slot :=
  [(" entry[".toList,isDecimal),("] = L".toList,isDecimal),("Entry @ 0x".toList,isHexDigit),
    (" \x7b ".toList,isHexDigit),(" ".toList,Char.isUpper)]

def lineEnd : List Char := " \x7d\n".toList

def values (contents : Contents) (level t : ℕ) (i : Fin 512) : List (List Char) :=
  [rightAligned 3 i,decimal level,paddedOf false 16 (t+8*i),padded 18 (contents t i).toNat,
    flags (contents t i).toNat]

def present (contents : Contents) (t : ℕ) : List (Fin 512) :=
  (List.finRange 512).filter (fun i => isPresent (contents t i).toNat)

theorem flags_isUpper (value : ℕ) : ∀ c ∈ flags value, c.isUpper = true := by
  apply List.all_eq_true.mp
  unfold flags
  split_ifs
  all_goals decide

theorem values_fit (contents : Contents) (level t : ℕ) (i : Fin 512) :
    Fits slots (values contents level t i) :=
  .cons (right_isDecimal 3 i) (.cons (decimal_isDecimal level) (.cons (padded_digits _ _ _)
    (.cons (padded_digits _ _ _) (.cons (flags_isUpper _) .nil))))

/-- The lines of a table are those of its present entries. -/
theorem lines_present (contents : Contents) (level t : ℕ) :
    (List.finRange 512).flatMap (lineText contents level t) =
      ((present contents t).map (values contents level t)).flatMap (fill lineEnd slots) := by
  rw [present]
  induction List.finRange 512 with
  | nil => rfl
  | cons i is ih =>
    rw [List.flatMap_cons, ih]
    cases hp : isPresent (contents t i).toNat with
    | false => simp [lineText, hp]
    | true => simp [lineText, hp, entryText, pointer, slots, lineEnd, values, fill]

/-- Both have the same present entries at an address. -/
def SameTable (contents contents' : Contents) (t : ℕ) : Prop :=
  ∀ i, isPresent (contents t i).toNat = true ∨ isPresent (contents' t i).toNat = true →
    contents t i = contents' t i

theorem values_inj (contents contents' : Contents) (level t : ℕ) (i j : Fin 512)
    (h : values contents level t i = values contents' level t j) :
    i = j ∧ contents t i = contents' t j := by
  simp only [values, List.cons.injEq, and_true] at h
  obtain ⟨hindex,-,-,hvalue,-⟩ := h
  have hi := congrArg fromDecimal hindex
  rw [fromDecimal_right, fromDecimal_right] at hi
  have hv := congrArg fromDigits hvalue
  rw [fromDigits_padded, fromDigits_padded] at hv
  exact ⟨Fin.ext hi,BitVec.eq_of_toNat_eq hv⟩

theorem present_found (contents contents' : Contents) (level t : ℕ)
    (h : (present contents t).map (values contents level t) =
      (present contents' t).map (values contents' level t)) (i : Fin 512)
    (hi : isPresent (contents t i).toNat = true) : contents t i = contents' t i := by
  have hmem : values contents level t i ∈ (present contents t).map (values contents level t) :=
    List.mem_map_of_mem (List.mem_filter.mpr ⟨List.mem_finRange i,hi⟩)
  rw [h] at hmem
  obtain ⟨j,-,hj⟩ := List.mem_map.mp hmem
  obtain ⟨rfl,hvalue⟩ := values_inj contents contents' level t i j hj.symm
  exact hvalue

/-- A printed table determines its address and its present entries. -/
theorem tableText_split (contents contents' : Contents) (level t t' : ℕ) (rest rest' : List Char)
    (h : tableText contents level t++rest = tableText contents' level t'++rest') :
    t = t' ∧ SameTable contents contents' t ∧ rest = rest' := by
  simp only [tableText, pointer, List.append_assoc, List.append_cancel_left_eq] at h
  obtain ⟨rfl,h⟩ := padded_split false 16 t t' " \x7b\n".toList _ _ ⟨_,_,rfl,by decide⟩ h
  rw [lines_present, lines_present] at h
  have hfit : ∀ c : Contents, ∀ vs ∈ (present c t).map (values c level t), Fits slots vs := by
    intro c vs hvs
    obtain ⟨i,-,rfl⟩ := List.mem_map.mp hvs
    exact values_fit c level t i
  obtain ⟨hvalues,h⟩ := fills_split lineEnd slots (by decide) ' ' (by decide) _ _ (hfit contents)
    (hfit contents') _ _ (by simp) (by simp) h
  refine ⟨rfl,?_,List.append_cancel_left h⟩
  rintro i (hi | hi)
  · exact present_found contents contents' level t hvalues i hi
  · exact (present_found contents' contents level t hvalues.symm i hi).symm

theorem tableText_congr (contents contents' : Contents) (level t : ℕ)
    (h : SameTable contents contents' t) :
    tableText contents level t = tableText contents' level t := by
  have hline : lineText contents level t = lineText contents' level t := by
    funext i
    by_cases hi : isPresent (contents t i).toNat = true ∨ isPresent (contents' t i).toNat = true
    · simp only [lineText, h i hi]
    · rw [not_or] at hi
      simp only [lineText, if_neg hi.1, if_neg hi.2]
  rw [tableText, tableText, hline]

theorem nextLevel_congr (contents contents' : Contents) (t : ℕ)
    (h : SameTable contents contents' t) :
    nextLevel contents t 0 = nextLevel contents' t 0 := by
  have hfirst : ∀ c : Contents, nextLevel c t 0 = (table (c t 0).toNat).toOption.join :=
    fun _ => rfl
  rw [hfirst, hfirst]
  by_cases h0 : isPresent (contents t 0).toNat = true ∨ isPresent (contents' t 0).toNat = true
  · rw [h 0 h0]
  · rw [not_or] at h0
    rw [table, table, if_neg h0.1, if_neg h0.2]

theorem optionText_split (contents contents' : Contents) (level : ℕ) (o o' : Option ℕ)
    (rest rest' : List Char)
    (h : optionText contents level o++rest = optionText contents' level o'++rest') :
    o = o' ∧ (∀ t, o = some t → SameTable contents contents' t) ∧ rest = rest' := by
  cases o with
  | none =>
    cases o' with
    | none => exact ⟨rfl,(fun t ht => nomatch ht),List.append_cancel_left h⟩
    | some t' => simp [optionText] at h
  | some t =>
    cases o' with
    | none => simp [optionText] at h
    | some t' =>
      simp only [optionText, List.append_assoc, List.append_cancel_left_eq] at h
      obtain ⟨rfl,hs,h⟩ := tableText_split contents contents' level t t' _ _ h
      exact ⟨rfl,fun u hu => Option.some.inj hu ▸ hs,List.append_cancel_left h⟩

/-- The text of `count` levels from a table on. -/
def levelsText (contents : Contents) : ℕ → Option ℕ → List Char
  | 0, _ => []
  | count+1, t => optionText contents (count+1) t ++ '\n'::levelsText contents count
      (t.bind (fun t => nextLevel contents t 0))

def dumpText (contents : Contents) (cr3 : ℕ) : List Char :=
  "cr3 = ".toList++(pointer cr3 ++ '\n'::levelsText contents 4 (reference cr3))

/-- Both have the same tables on all of the levels that are printed. -/
def SameLevels (contents contents' : Contents) : ℕ → Option ℕ → Prop
  | 0, _ => True
  | count+1, t => (∀ a, t = some a → SameTable contents contents' a) ∧
      SameLevels contents contents' count (t.bind (fun t => nextLevel contents t 0))

/-- By induction on the levels: equal tables lead to equal tables. -/
theorem levelsText_iff (contents contents' : Contents) (count : ℕ) (t : Option ℕ) :
    levelsText contents count t = levelsText contents' count t ↔
      SameLevels contents contents' count t := by
  induction count generalizing t with
  | zero => exact ⟨fun _ => trivial,fun _ => rfl⟩
  | succ count ih =>
    have hnext : (∀ a, t = some a → SameTable contents contents' a) →
        t.bind (fun t => nextLevel contents t 0) = t.bind (fun t => nextLevel contents' t 0) := by
      intro hs
      cases t with
      | none => rfl
      | some a => exact nextLevel_congr contents contents' a (hs a rfl)
    constructor
    · intro h
      obtain ⟨-,hs,h⟩ := optionText_split contents contents' (count+1) t t _ _ h
      rw [← hnext hs] at h
      exact ⟨hs,(ih _).mp (List.cons.inj h).2⟩
    · rintro ⟨hs,hrest⟩
      have htext : optionText contents (count+1) t = optionText contents' (count+1) t := by
        cases t with
        | none => rfl
        | some a => rw [optionText, optionText, tableText_congr contents contents' _ a (hs a rfl)]
      rw [levelsText, levelsText, htext, ← hnext hs, (ih _).mpr hrest]

theorem sameLevels_iff (contents contents' : Contents) (count : ℕ) (t : Option ℕ) :
    SameLevels contents contents' count t ↔ ∀ k < count, ∀ a,
      t.bind (fun t => nextLevels contents t (List.replicate k 0)) = some a →
        SameTable contents contents' a := by
  induction count generalizing t with
  | zero => simp [SameLevels]
  | succ count ih =>
    have hstep : ∀ k, t.bind (fun t => nextLevels contents t (List.replicate (k+1) 0)) =
        (t.bind (fun t => nextLevel contents t 0)).bind
          (fun t => nextLevels contents t (List.replicate k 0)) := by
      intro k
      cases t with
      | none => rfl
      | some a => rfl
    rw [SameLevels, ih]
    constructor
    · rintro ⟨hs,hrest⟩ k hk a ha
      cases k with
      | zero => exact hs a (by simpa [nextLevels] using ha)
      | succ k =>
        rw [hstep] at ha
        exact hrest k (by omega) a ha
    · intro h
      refine ⟨fun a ha => h 0 (by omega) a (by simp [nextLevels, ha]),fun k hk a ha => ?_⟩
      rw [← hstep] at ha
      exact h (k+1) (by omega) a ha

/-- The table that is printed `k` levels below the root. -/
def printed (contents : Contents) (cr3 k : ℕ) : Option ℕ :=
  (reference cr3).bind (fun t => nextLevels contents t (List.replicate k 0))

theorem dumpText_iff (contents contents' : Contents) (cr3 cr3' : ℕ) :
    dumpText contents cr3 = dumpText contents' cr3' ↔ cr3 = cr3' ∧ ∀ k < 4, ∀ a,
      printed contents cr3 k = some a → SameTable contents contents' a := by
  simp only [printed]
  rw [← sameLevels_iff contents contents' 4 (reference cr3), ← levelsText_iff]
  constructor
  · intro h
    simp only [dumpText, pointer, List.append_assoc, List.append_cancel_left_eq] at h
    obtain ⟨rfl,h⟩ := padded_split false 16 cr3 cr3' ['\n'] _ _ ⟨_,_,rfl,by decide⟩ h
    exact ⟨rfl,h⟩
  · rintro ⟨rfl,h⟩
    rw [dumpText, dumpText, h]

theorem sends_dump (contents : Contents) (cr3 : ℕ) :
    Sends (dumpTables contents cr3) (dumpText contents cr3) (.ok ()) := by
  have h := sends_seq _ _ _ _ _ (sends_println ["cr3 = ".toList,pointer cr3])
    (sends_seq _ _ _ _ _ (sends_println [optionText contents 4 (reference cr3)])
      (sends_seq _ _ _ _ _ (sends_println [optionText contents 3
          ((reference cr3).bind (fun t => nextLevel contents t 0))])
        (sends_seq _ _ _ _ _ (sends_println [optionText contents 2
            (((reference cr3).bind (fun t => nextLevel contents t 0)).bind
              (fun t => nextLevel contents t 0))])
          (sends_println [optionText contents 1 ((((reference cr3).bind
            (fun t => nextLevel contents t 0)).bind (fun t => nextLevel contents t 0)).bind
              (fun t => nextLevel contents t 0))]))))
  simp only [List.flatten_cons, List.flatten_nil, List.append_nil, List.append_assoc,
    List.cons_append, List.nil_append] at h
  simp only [dumpText, levelsText]
  exact h

theorem pointer_narrow (address : ℕ) : Narrow (pointer address) :=
  (narrow_append _ _).mpr
    ⟨by decide,fun c hc => hexDigit_narrow c (padded_digits false 16 address c hc)⟩

theorem values_narrow (contents : Contents) (level t : ℕ) (i : Fin 512) :
    ∀ v ∈ values contents level t i, Narrow v := by
  simp only [values, List.forall_mem_cons]
  exact ⟨fun c hc => decimal_narrow c (right_isDecimal 3 i c hc),
    fun c hc => decimal_narrow c (decimal_isDecimal level c hc),
    fun c hc => hexDigit_narrow c (padded_digits false 16 _ c hc),
    fun c hc => hexDigit_narrow c (padded_digits true 18 _ c hc),
    fun c hc => isUpper_narrow c (flags_isUpper _ c hc),fun v hv => by cases hv⟩

theorem tableText_narrow (contents : Contents) (level t : ℕ) :
    Narrow (tableText contents level t) := by
  have hlines : Narrow ((List.finRange 512).flatMap (lineText contents level t)) := by
    rw [lines_present]
    intro c hc
    obtain ⟨v,hv,hc⟩ := List.mem_flatMap.mp hc
    obtain ⟨i,-,rfl⟩ := List.mem_map.mp hv
    exact fill_narrow lineEnd slots _ (by decide) (by decide)
      (values_narrow contents level t i) c hc
  simp only [tableText, narrow_append]
  exact ⟨⟨⟨⟨⟨⟨by decide,fun c hc => decimal_narrow c (decimal_isDecimal level c hc)⟩,by decide⟩,
    pointer_narrow t⟩,by decide⟩,hlines⟩,by decide⟩

theorem optionText_narrow (contents : Contents) (level : ℕ) (t : Option ℕ) :
    Narrow (optionText contents level t) := by
  cases t with
  | none =>
    rw [optionText]
    decide
  | some a =>
    simp only [optionText, narrow_append]
    exact ⟨⟨by decide,tableText_narrow contents level a⟩,by decide⟩

theorem levelsText_narrow (contents : Contents) (count : ℕ) (t : Option ℕ) :
    Narrow (levelsText contents count t) := by
  induction count generalizing t with
  | zero => exact fun c hc => by cases hc
  | succ count ih =>
    rw [levelsText, narrow_append]
    exact ⟨optionText_narrow contents _ t,(narrow_append ['\n'] _).mpr ⟨by decide,ih _⟩⟩

theorem dumpText_narrow (contents : Contents) (cr3 : ℕ) : Narrow (dumpText contents cr3) := by
  rw [dumpText, narrow_append, narrow_append]
  exact ⟨by decide,pointer_narrow cr3,
    (narrow_append ['\n'] _).mpr ⟨by decide,levelsText_narrow contents 4 (reference cr3)⟩⟩

/-- Two dumps arrive alike exactly if the roots are the same and each table
that is printed has the same present entries. -/
theorem dump_determines (contents contents' : Contents) (cr3 cr3' : ℕ)
    (incoming incoming' : ℕ → UInt8) (hfair : Fair incoming) (hfair' : Fair incoming') :
    ∃ N bus bus', (∀ fuel ≥ N, dumpTables contents cr3 fuel ⟨incoming,[]⟩ = .ok (.ok (),bus) ∧
        dumpTables contents' cr3' fuel ⟨incoming',[]⟩ = .ok (.ok (),bus')) ∧
      (received 0x3f8 bus.trace = received 0x3f8 bus'.trace ↔ cr3 = cr3' ∧ ∀ k < 4, ∀ a,
        printed contents cr3 k = some a → SameTable contents contents' a) := by
  obtain ⟨N,bus,hrun,hlog⟩ := sends_received _ _ _ (sends_dump contents cr3) incoming hfair
  obtain ⟨M,bus',hrun',hlog'⟩ := sends_received _ _ _ (sends_dump contents' cr3') incoming' hfair'
  refine ⟨max N M,bus,bus',fun fuel hfuel => ⟨hrun fuel (by omega),hrun' fuel (by omega)⟩,?_⟩
  rw [hlog, hlog', ← dumpText_iff]
  constructor
  · exact bytes_inj _ _ (dumpText_narrow contents cr3) (dumpText_narrow contents' cr3')
  · intro h
    rw [h]

theorem dump_determines_firmware :
    ∃ N bus bus', (∀ fuel ≥ N,
        dumpTables firmwareTables 0x1000 fuel ⟨fun _ => 0x20,[]⟩ = .ok (.ok (),bus) ∧
        dumpTables (fun _ _ => 0) 0x1000 fuel ⟨fun _ => 0x60,[]⟩ = .ok (.ok (),bus')) ∧
      (received 0x3f8 bus.trace = received 0x3f8 bus'.trace ↔ 0x1000 = 0x1000 ∧ ∀ k < 4, ∀ a,
        printed firmwareTables 0x1000 k = some a →
          SameTable firmwareTables (fun _ _ => 0) a) :=
  dump_determines firmwareTables (fun _ _ => 0) 0x1000 0x1000 _ _ (fun _ => ⟨0,by decide⟩)
    (fun _ => ⟨0,by decide⟩)

end Wasabi.Paging.Dump
