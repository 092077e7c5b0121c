/-
What a configuration file means.

`conf_parse_file` reads a file line by line and calls itself for an
`include`; a command writes into whatever its context is at that moment. The
meaning does not mention any of it. The includes are replaced by the lines of
their files (`expand`), what is left is cut at the `listen` lines, and a
setting of a server is what its own section says last, or else what the lines
in front of the first `listen` say last, or else the built-in default
(`meaning`).
-/
import OliveHc.Conf.Parse

namespace OliveHc

/-! ## The lines of a text -/

def textLines : List UInt8 → List (List UInt8)
  | [] => []
  | x :: text =>
    if x = 10 then [] :: textLines text
    else match textLines text with
      | [] => [[x]]
      | line :: lines => (x :: line) :: lines

theorem textLines_newline {line : List UInt8} (text : List UInt8) (h : 10 ∉ line) :
    textLines (line ++ 10 :: text) = line :: textLines text := by
  induction line with
  | nil => simp [textLines]
  | cons x line ih =>
    simp only [List.mem_cons, not_or] at h
    simp [textLines, Ne.symm h.1, ih h.2]

theorem textLines_last {line : List UInt8} (h : 10 ∉ line) (hne : line ≠ []) : textLines line = [line] := by
  induction line with
  | nil => exact absurd rfl hne
  | cons x line ih =>
    simp only [List.mem_cons, not_or] at h
    cases line with
    | nil => simp [textLines, Ne.symm h.1]
    | cons y line => rw [textLines, if_neg (Ne.symm h.1), ih h.2 (by simp)]

/-- **A text is a line and the rest**, or its last line. -/
theorem text_cases (text : List UInt8) : (∃ line rest, 10 ∉ line ∧ text = line ++ 10 :: rest) ∨ 10 ∉ text := by
  by_cases h : 10 ∈ text
  · obtain ⟨line, rest, rfl, hline⟩ := List.eq_append_cons_of_mem h
    exact .inl ⟨line, rest, hline, rfl⟩
  · exact .inr h

theorem newline_notMem {text line : List UInt8} (h : line ∈ textLines text) : 10 ∉ line := by
  induction hn : text.length using Nat.strong_induction_on generalizing text with
  | _ n ih =>
  subst hn
  rcases text_cases text with ⟨l, rest, hl, rfl⟩ | hl
  · rw [textLines_newline rest hl, List.mem_cons] at h
    rcases h with rfl | h
    · exact hl
    · exact ih rest.length (by rw [List.length_append, List.length_cons]; omega) h rfl
  · by_cases hne : text = []
    · rw [hne] at h; cases h
    · rw [textLines_last hl hne, List.mem_singleton] at h
      rw [h]
      exact hl

/-! ### Lines and the pieces that `fgets` returns -/

theorem fgetsFrom_fits {line : List UInt8} (text : List UInt8) : ∀ {room : Nat}, 10 ∉ line → line.length < room →
    fgetsFrom room (line ++ 10 :: text) = (line ++ [10]) :: fgetsAll text := by
  induction line with
  | nil => intro room _ _; simp [fgetsFrom, fgetsAll]
  | cons x line ih =>
    intro room h hlt
    simp only [List.mem_cons, not_or] at h
    rw [List.length_cons] at hlt
    simp only [List.cons_append, fgetsFrom, ih h.2 (show line.length < room - 1 by omega),
      show ¬(x = 10 ∨ room ≤ 1) from fun hx => hx.elim (Ne.symm h.1) (by omega), if_false]

/-- A line that fills the buffer leaves its newline for the next piece. -/
theorem fgetsFrom_full {line : List UInt8} (text : List UInt8) : ∀ {room : Nat}, 10 ∉ line → line.length = room → line ≠ [] →
    fgetsFrom room (line ++ text) = line :: fgetsAll text := by
  induction line with
  | nil => intro room _ _ hne; exact absurd rfl hne
  | cons x line ih =>
    intro room h hlen _
    simp only [List.mem_cons, not_or] at h
    rw [List.length_cons] at hlen
    cases line with
    | nil => simp [fgetsFrom, fgetsAll, show room ≤ 1 by simp at hlen; omega]
    | cons y line =>
      rw [List.length_cons] at hlen
      rw [List.cons_append, fgetsFrom, if_neg fun hx => hx.elim (Ne.symm h.1) (by omega),
        ih h.2 (by rw [List.length_cons]; omega) (by simp)]

theorem fgetsFrom_last {line : List UInt8} : ∀ {room : Nat}, 10 ∉ line → line.length ≤ room → line ≠ [] →
    fgetsFrom room line = [line] := by
  induction line with
  | nil => intro room _ _ hne; exact absurd rfl hne
  | cons x line ih =>
    intro room h hlen _
    simp only [List.mem_cons, not_or] at h
    rw [List.length_cons] at hlen
    cases line with
    | nil => simp [fgetsFrom]
    | cons y line =>
      rw [List.length_cons] at hlen
      rw [fgetsFrom, if_neg fun hx => hx.elim (Ne.symm h.1) (by omega),
        ih h.2 (by rw [List.length_cons]; omega) (by simp)]

theorem takeWhile_newline (l : List UInt8) : (l ++ [10]).takeWhile (· != 0) = l.takeWhile (· != 0) ∨
    (l ++ [10]).takeWhile (· != 0) = l.takeWhile (· != 0) ++ [10] := by
  induction l with
  | nil => exact .inr rfl
  | cons x l ih =>
    by_cases hx : x = 0
    · exact .inl (by simp [hx])
    · simp only [List.cons_append, List.takeWhile_cons, bne_iff_ne, ne_eq, hx, not_false_eq_true, if_true]
      rcases ih with h | h
      · exact .inl (by rw [h])
      · exact .inr (by rw [h])

theorem strnonwhite_newline (l : List UInt8) :
    strnonwhite (l ++ [10]) = if strnonwhite l = [] then [] else strnonwhite l ++ [10] := by
  induction l with
  | nil => rfl
  | cons x l ih =>
    simp only [strnonwhite, List.cons_append, List.dropWhile_cons] at ih ⊢
    by_cases hx : isWhite x
    · simp only [hx, if_true]
      exact ih
    · simp [hx]

theorem strwhite_newline (l : List UInt8) : strwhite (l ++ [10]) = ((strwhite l).1, (strwhite l).2 ++ [10]) := by
  simp only [strwhite, List.span_eq_takeWhile_dropWhile]
  induction l with
  | nil => rfl
  | cons x l ih =>
    simp only [Prod.mk.injEq] at ih ⊢
    simp only [List.cons_append, List.takeWhile_cons, List.dropWhile_cons]
    by_cases hx : isWhite x
    · simp [hx]
    · simp [hx, ih.1, ih.2]

/-- **The newline of a line** makes no difference. -/
theorem confReadline_newline (line : List UInt8) : confReadline (line ++ [10]) = confReadline line := by
  rcases takeWhile_newline line with h | h
  · simp only [confReadline, h]
  simp only [confReadline, h]
  generalize line.takeWhile (· != 0) = l
  rw [strnonwhite_newline]
  by_cases h1 : strnonwhite l = []
  · simp [h1]
  rw [if_neg h1]
  generalize strnonwhite l = s at h1
  have hhead : (s ++ [10]).head? = s.head? := by cases s with | nil => exact absurd rfl h1 | cons => rfl
  simp only [hhead, List.append_eq_nil_iff, h1, false_and, strwhite_newline, strnonwhite_newline]
  split
  · rfl
  by_cases h2 : strnonwhite (strwhite s).2 = []
  · simp [h2]
  simp only [List.append_eq_nil_iff, h2, false_and, if_false, strwhite_newline, strnonwhite_newline]
  generalize strnonwhite (strwhite s).2 = t
  by_cases h3 : strnonwhite (strwhite t).2 = []
  · simp [h3]
  have hhead' : (strnonwhite (strwhite t).2 ++ [10]).head? = (strnonwhite (strwhite t).2).head? := by
    generalize strnonwhite (strwhite t).2 = u at h3
    cases u with
    | nil => exact absurd rfl h3
    | cons => rfl
  simp only [h3, if_false, hhead', List.append_eq_nil_iff, false_and]

/-- The lines of a text are shorter than the line buffer. -/
def ShortLines (text : List UInt8) : Prop := ∀ line ∈ textLines text, line.length < pathLength

section

variable {parse : List UInt8 → ConfState → Option String × ConfState} {filename : List UInt8}

theorem confParseLines_congr {piece piece' : List UInt8} (pieces : List (List UInt8)) (st : ConfState)
    (h : confReadline piece = confReadline piece') :
    confParseLines parse filename (piece :: pieces) st = confParseLines parse filename (piece' :: pieces) st := by
  simp only [confParseLines, h]

/-- One line in front: what follows it matters only from the states it leaves. -/
theorem confParseLines_cons {piece : List UInt8} {pieces pieces' : List (List UInt8)} {st : ConfState}
    (h : ∀ st, confParseLines parse filename pieces st = confParseLines parse filename pieces' st) :
    confParseLines parse filename (piece :: pieces) st = confParseLines parse filename (piece :: pieces') st := by
  simp only [confParseLines, h]

/-- **Reading with `fgets`** is reading the lines, if they are short enough. -/
theorem confParseLines_fgetsAll {text : List UInt8} (hs : ShortLines text) (st : ConfState) :
    confParseLines parse filename (fgetsAll text) st = confParseLines parse filename (textLines text) st := by
  induction hn : text.length using Nat.strong_induction_on generalizing text st with
  | _ n ih =>
  subst hn
  rcases text_cases text with ⟨line, rest, hl, rfl⟩ | hl
  · simp only [ShortLines, textLines_newline rest hl, List.forall_mem_cons] at hs
    have hrest : ∀ st, confParseLines parse filename (fgetsAll rest) st = confParseLines parse filename (textLines rest) st :=
      fun st => ih rest.length (by rw [List.length_append, List.length_cons]; omega) hs.2 st rfl
    rw [textLines_newline rest hl]
    by_cases hfull : line.length < pathLength - 1
    · rw [fgetsAll, fgetsFrom_fits rest hl hfull, confParseLines_congr _ _ (confReadline_newline line)]
      exact confParseLines_cons hrest
    · have hlen : line.length = pathLength - 1 := by have := hs.1; omega
      have hne : line ≠ [] := by
        intro he
        rw [he] at hlen
        exact absurd hlen (by decide)
      rw [fgetsAll, fgetsFrom_full _ hl hlen hne]
      refine confParseLines_cons fun st => ?_
      -- the piece that is left is a newline alone
      rw [show 10 :: rest = [] ++ 10 :: rest from rfl, fgetsAll, fgetsFrom_fits rest (by simp) (by decide)]
      exact hrest st
  · by_cases hne : text = []
    · rw [hne]; rfl
    · simp only [ShortLines, textLines_last hl hne, List.mem_singleton, forall_eq] at hs
      rw [fgetsAll, fgetsFrom_last hl (by omega) hne, textLines_last hl hne]

end

/-! ## Includes -/

/-- A line that includes a file. -/
def Includes (line arg : List UInt8) : Prop := confReadline line = .ok (lit "include") arg

/-- The path of an included file fits its buffer. -/
def IncludeFits (filename arg : List UInt8) : Prop :=
  arg.length < pathLength ∧ (47 ∈ filename → (filename.reverse.dropWhile (· != 47)).length + arg.length < pathLength)

/-- **A text that can be read**: the lines are short, the paths fit, and at
most `depth` files are included in each other. -/
def TextOk (fs : List UInt8 → Option (List UInt8)) : Nat → List UInt8 → List UInt8 → Prop
  | 0, filename, text => ShortLines text ∧ ∀ line ∈ textLines text, ∀ arg, Includes line arg →
      IncludeFits filename arg ∧ fs (includedFile filename arg) = none
  | depth + 1, filename, text => ShortLines text ∧ ∀ line ∈ textLines text, ∀ arg, Includes line arg →
      IncludeFits filename arg ∧
        ∀ included, fs (includedFile filename arg) = some included → TextOk fs depth (includedFile filename arg) included

/-- **The lines of a text with the includes replaced** by the lines of their
files. What is left of them names a file that cannot be opened. -/
def expand (fs : List UInt8 → Option (List UInt8)) : Nat → List UInt8 → List UInt8 → List (List UInt8)
  | 0, _, text => textLines text
  | depth + 1, filename, text => (textLines text).flatMap fun line =>
    match confReadline line with
    | .ok cmd arg =>
      if cmd = lit "include" then
        match fs (includedFile filename arg) with
        | none => [line]
        | some included => expand fs depth (includedFile filename arg) included
      else [line]
    | _ => [line]

theorem expand_newline {fs : List UInt8 → Option (List UInt8)} : ∀ {depth : Nat} {filename text line : List UInt8},
    line ∈ expand fs depth filename text → 10 ∉ line
  | 0, _, _, _, h => newline_notMem h
  | depth + 1, filename, text, line, h => by
    rw [expand, List.mem_flatMap] at h
    obtain ⟨l, hl, h⟩ := h
    have hl := newline_notMem hl
    split at h
    · split at h
      · split at h
        · rw [List.mem_singleton] at h; rw [h]; exact hl
        · exact expand_newline h
      · rw [List.mem_singleton] at h; rw [h]; exact hl
    · rw [List.mem_singleton] at h; rw [h]; exact hl

theorem expand_short {fs : List UInt8 → Option (List UInt8)} : ∀ {depth : Nat} {filename text line : List UInt8},
    TextOk fs depth filename text → line ∈ expand fs depth filename text → line.length < pathLength
  | 0, _, _, _, hok, h => hok.1 _ h
  | depth + 1, filename, text, line, hok, h => by
    rw [expand, List.mem_flatMap] at h
    obtain ⟨l, hl, h⟩ := h
    have hs := hok.1 l hl
    split at h
    · next cmd arg hr =>
      split at h
      · next hi =>
        split at h
        · rw [List.mem_singleton] at h; rw [h]; exact hs
        · next included hf => exact expand_short ((hok.2 l hl arg (by rw [Includes, hr, hi])).2 included hf) h
      · rw [List.mem_singleton] at h; rw [h]; exact hs
    · rw [List.mem_singleton] at h; rw [h]; exact hs

/-- The commands of a list of lines, with no file to include. -/
def parseFlat (lines : List (List UInt8)) (st : ConfState) : Option String × ConfState :=
  confParseLines (fun _ st => (some "open conf file", st)) [] lines st

/-- Two readers that accept the same and leave the same. -/
def Agree (x y : Option String × ConfState) : Prop := (x.1 = none ↔ y.1 = none) ∧ x.2 = y.2

theorem Agree.refl (x : Option String × ConfState) : Agree x x := ⟨Iff.rfl, rfl⟩

theorem Agree.trans {x y z : Option String × ConfState} (h : Agree x y) (h' : Agree y z) : Agree x z :=
  ⟨h.1.trans h'.1, h.2.trans h'.2⟩

/-- One reader behind another. -/
def andThen (x : Option String × ConfState) (f : ConfState → Option String × ConfState) : Option String × ConfState :=
  match x.1 with
  | none => f x.2
  | some _ => x

/-- Lines behind others are read only if those are accepted. -/
theorem confParseLines_append {parse : List UInt8 → ConfState → Option String × ConfState} {filename : List UInt8}
    {lines lines' : List (List UInt8)} : ∀ {st : ConfState}, confParseLines parse filename (lines ++ lines') st =
      andThen (confParseLines parse filename lines st) (confParseLines parse filename lines') := by
  induction lines with
  | nil => intro st; rfl
  | cons line lines ih =>
    intro st
    simp only [List.cons_append, confParseLines]
    cases confReadline line with
    | again => exact ih
    | error msg => rfl
    | ok cmd arg =>
      by_cases hi : cmd = lit "include"
      · simp only [hi, if_true]
        cases parse (includedFile filename arg) st with
        | mk rc st' =>
        cases rc with
        | none => exact ih
        | some msg => rfl
      · simp only [hi, if_false]
        cases confCommand cmd arg st with
        | error msg => rfl
        | ok st => exact ih

theorem Agree.andThen {x y : Option String × ConfState} {f g : ConfState → Option String × ConfState} (h : Agree x y)
    (hfg : ∀ st, Agree (f st) (g st)) : Agree (andThen x f) (andThen y g) := by
  obtain ⟨rc, st⟩ := x
  obtain ⟨rc', st'⟩ := y
  obtain ⟨h1, rfl⟩ := h
  cases rc with
  | none =>
    obtain rfl : rc' = none := h1.mp rfl
    exact hfg st
  | some msg =>
    cases rc' with
    | none => exact absurd (h1.mpr rfl) (by simp)
    | some msg' => exact ⟨by simp [OliveHc.andThen], rfl⟩

section

variable {fs : List UInt8 → Option (List UInt8)}

/-- The loop, if every line is read as what replaces it. -/
theorem confParseLines_agree {parse : List UInt8 → ConfState → Option String × ConfState} {filename : List UInt8}
    {flat : List UInt8 → List (List UInt8)} : ∀ {lines : List (List UInt8)} {st : ConfState},
    (∀ line ∈ lines, ∀ st, Agree (confParseLines parse filename [line] st) (parseFlat (flat line) st)) →
    Agree (confParseLines parse filename lines st) (parseFlat (lines.flatMap flat) st)
  | [], st, _ => Agree.refl _
  | line :: lines, st, h => by
    obtain ⟨hline, hlines⟩ := List.forall_mem_cons.mp h
    rw [← List.singleton_append, confParseLines_append, List.flatMap_append, List.flatMap_singleton, parseFlat,
      confParseLines_append]
    exact (hline st).andThen fun st => confParseLines_agree hlines

/-- A line that includes nothing is read alike everywhere. -/
theorem confParseLines_plain {parse : List UInt8 → ConfState → Option String × ConfState} {filename line : List UInt8}
    {st : ConfState} (h : ∀ arg, ¬Includes line arg) : confParseLines parse filename [line] st = parseFlat [line] st := by
  simp only [parseFlat, confParseLines]
  cases hr : confReadline line with
  | again => rfl
  | error msg => rfl
  | ok cmd arg =>
    have hi : cmd ≠ lit "include" := fun he => h arg (by rw [Includes, hr, he])
    simp only [hi, if_false]

/-- A line that names a file which is not read is refused. -/
theorem confParseLines_refused {parse : List UInt8 → ConfState → Option String × ConfState} {filename line arg : List UInt8}
    {st : ConfState} (h : Includes line arg) (hp : ∃ msg, parse (includedFile filename arg) st = (some msg, st)) :
    Agree (confParseLines parse filename [line] st) (parseFlat [line] st) := by
  obtain ⟨msg, hp⟩ := hp
  rw [Includes] at h
  simp only [parseFlat, confParseLines, h, if_true, hp]
  exact ⟨by simp, rfl⟩

/-- **Reading a file** is reading its lines with the includes replaced. -/
theorem confParseFile_expand : ∀ {depth : Nat} {filename text : List UInt8} {st : ConfState}, fs filename = some text →
    TextOk fs depth filename text →
    Agree (confParseFile fs (depth + 1) filename st) (parseFlat (expand fs depth filename text) st)
  | 0, filename, text, st, hf, hok => by
    simp only [confParseFile, hf]
    rw [confParseLines_fgetsAll hok.1, expand]
    nth_rewrite 2 [← List.flatMap_singleton' (textLines text)]
    refine confParseLines_agree fun line hl st => ?_
    by_cases hi : ∃ arg, Includes line arg
    · obtain ⟨arg, hi⟩ := hi
      exact confParseLines_refused hi ⟨_, rfl⟩
    · rw [confParseLines_plain fun arg ha => hi ⟨arg, ha⟩]
      exact Agree.refl _
  | depth + 1, filename, text, st, hf, hok => by
    rw [confParseFile, hf]
    dsimp only
    rw [confParseLines_fgetsAll hok.1, expand]
    refine confParseLines_agree fun line hl st => ?_
    by_cases hi : ∃ arg, Includes line arg
    · obtain ⟨arg, hi⟩ := hi
      have hr : confReadline line = .ok (lit "include") arg := hi
      simp only [hr, if_true]
      cases hfs : fs (includedFile filename arg) with
      | none => exact confParseLines_refused hi ⟨"open conf file", by simp only [confParseFile, hfs]⟩
      | some included =>
        have ih := @confParseFile_expand depth _ _ st hfs ((hok.2 line hl arg hi).2 included hfs)
        refine Agree.trans ?_ ih
        simp only [confParseLines, hr, if_true]
        cases confParseFile fs (depth + 1) (includedFile filename arg) st with
        | mk rc st' =>
        cases rc with
        | none => exact Agree.refl _
        | some msg => exact ⟨by simp, rfl⟩
    · rw [confParseLines_plain fun arg ha => hi ⟨arg, ha⟩]
      cases hr : confReadline line with
      | again => exact Agree.refl _
      | error msg => exact Agree.refl _
      | ok cmd arg =>
        have hne : cmd ≠ lit "include" := fun he => hi ⟨arg, by rw [Includes, hr, he]⟩
        simp only [hne, if_false]
        exact Agree.refl _

end

/-! ## What commands say -/

def Command.isGlobal : Command → Bool
  | .cycle _ | .device => true
  | .listen | .server _ => false

/-- **A command with its argument**, as a line has it. -/
abbrev ConfEntry := Command × List UInt8

def entry (line : List UInt8) : Option ConfEntry :=
  match confReadline line with
  | .ok cmd arg => (findCommand cmd).map fun c => (c.2, arg)
  | _ => none

section

variable {F : Type} [DecidableEq F]

/-- The number that a setting gives a field. -/
def Setting.number? (f : F) (arg : List UInt8) : Setting F → Option Nat
  | .path => none
  | .int g => if g = f then (intArg arg).toOption else none
  | .size g => if g = f then (sizeArg arg).toOption else none
  | .flag g => if g = f then (flagArg arg).toOption else none

/-- The path that a setting gives. -/
def Setting.log? (arg : List UInt8) : Setting F → Option (List UInt8)
  | .path => (pathArg arg).toOption
  | _ => none

/-- The handler of a setting takes the argument. -/
def Setting.accepts (arg : List UInt8) : Setting F → Bool
  | .path => (pathArg arg).isOk
  | .int _ => (intArg arg).isOk
  | .size _ => (sizeArg arg).isOk
  | .flag _ => (flagArg arg).isOk

end

/-- The handler of a command takes the argument. -/
def Command.accepts (arg : List UInt8) : Command → Bool
  | .cycle s => s.accepts arg
  | .device => true
  | .listen => (portArg arg).isOk
  | .server s => s.accepts arg

def cycleNumber (f : CycleField) : ConfEntry → Option Nat
  | (.cycle s, arg) => s.number? f arg
  | _ => none

def cycleLog : ConfEntry → Option (List UInt8)
  | (.cycle s, arg) => s.log? arg
  | _ => none

def serverNumber (f : ServerField) : ConfEntry → Option Nat
  | (.server s, arg) => s.number? f arg
  | _ => none

def serverLog : ConfEntry → Option (List UInt8)
  | (.server s, arg) => s.log? arg
  | _ => none

def deviceFile : ConfEntry → Option (List UInt8)
  | (.device, arg) => some arg
  | _ => none

/-- The last value that the entries give. -/
def lastOf {α : Type} (get : ConfEntry → Option α) (es : List ConfEntry) : Option α := (es.filterMap get).getLast?

/-- The entries in front of the first `listen`. -/
def preamble (es : List ConfEntry) : List ConfEntry := es.takeWhile fun e => e.1 ≠ .listen

/-- The arguments of the `listen` lines, each with the entries up to the next one. -/
def sections : List ConfEntry → List (List UInt8 × List ConfEntry)
  | [] => []
  | (c, arg) :: es => if c = .listen then (arg, preamble es) :: sections es else sections es

/-- A server with what the entries say instead of `x`. -/
def override (x : Settings ServerField) (es : List ConfEntry) : Settings ServerField where
  number f := (lastOf (serverNumber f) es).getD (x.number f)
  log := (lastOf serverLog es).getD x.log

/-- **The meaning of a configuration.** -/
def meaning (es : List ConfEntry) : Cycle where
  number f := (lastOf (cycleNumber f) (preamble es)).getD (cycleDefault.number f)
  log := (lastOf cycleLog (preamble es)).getD cycleDefault.log
  devices := (preamble es).filterMap deviceFile
  servers := (sections es).map fun s =>
    { number := fun f => ((lastOf (serverNumber f) s.2).or (lastOf (serverNumber f) (preamble es))).getD
        (serverDefault.number f)
      log := ((lastOf serverLog s.2).or (lastOf serverLog (preamble es))).getD serverDefault.log
      listenPort := (portArg s.1).toOption.getD 0 }

/-- **What a configuration is refused for.** -/
inductive Refused (lines : List (List UInt8)) : Prop
  | malformed {line : List UInt8} {msg : String} : line ∈ lines → confReadline line = .error msg → Refused lines
  | notOpened {line arg : List UInt8} : line ∈ lines → Includes line arg → Refused lines
  | noCommand {line cmd arg : List UInt8} : line ∈ lines → confReadline line = .ok cmd arg → cmd ≠ lit "include" →
      findCommand cmd = none → Refused lines
  | argument {line arg : List UInt8} {c : Command} : line ∈ lines → entry line = some (c, arg) → c.accepts arg = false →
      Refused lines
  | globalAfterListen {before after : List (List UInt8)} {line line' arg arg' : List UInt8} {c : Command} :
      lines = before ++ line :: after → entry line = some (c, arg) → c.isGlobal → line' ∈ before →
      entry line' = some (.listen, arg') → Refused lines

/-! ### One command -/

theorem findCommand_include : findCommand (lit "include") = none := by decide +kernel

/-- The commands in front of `listen` are the global ones. -/
theorem findCommand_global {cmd : List UInt8} {i : Nat} {c : Command} (h : findCommand cmd = some (i, c)) :
    (i < serverContextBegin ↔ c.isGlobal) ∧ (cmd, c) ∈ gCommands := by
  obtain ⟨⟨⟨name, c'⟩, j⟩, hf, he⟩ := Option.map_eq_some_iff.mp h
  cases he
  have hmem := List.mem_of_find?_eq_some hf
  have hname : (name == cmd) = true := List.find?_some (p := fun c : (List UInt8 × Command) × Nat => c.1.1 == cmd) hf
  obtain rfl := beq_iff_eq.mp hname
  have hall : ∀ x ∈ gCommands.zipIdx, (x.2 < serverContextBegin ↔ x.1.2.isGlobal) := by decide +kernel
  exact ⟨hall _ hmem, (List.mem_zipIdx hmem).2.2 ▸ List.getElem_mem _⟩

/-- A command in its context. -/
def Command.run (arg : List UInt8) (st : ConfState) (c : Command) : Except String ConfState :=
  if c.isGlobal ∧ st.cycle.servers ≠ [] then .error "global command in server context" else c.set arg st

theorem confCommand_eq {cmd arg : List UInt8} {st : ConfState} {i : Nat} {c : Command} (h : findCommand cmd = some (i, c)) :
    confCommand cmd arg st = c.run arg st := by
  simp only [confCommand, h, (findCommand_global h).1, Command.run]

/-- The fields that `conf_set_int` writes, and the others. -/
def CycleField.isInt : CycleField → Bool
  | .deviceCheck270G => false
  | _ => true

def ServerField.isInt : ServerField → Bool
  | .connectionsLimit | .recvTimeout | .requestTimeout | .sendTimeout | .expireDefault | .expireForce | .keepaliveTimeout
  | .passbyBeginItemNr | .passbyLimitNr | .passbyExpire | .statusPeriod => true
  | _ => false

section

variable {F : Type} [DecidableEq F]

/-- A field is set by one kind of handler only. -/
def Setting.typed (isInt : F → Bool) : Setting F → Bool
  | .path => true
  | .int f => isInt f
  | .size f | .flag f => !isInt f

/-- The high bytes of the fields of `int` commands are zero. -/
def Settings.Low (isInt : F → Bool) (x : Settings F) : Prop := ∀ f, isInt f → x.number f < 4294967296

theorem intArg_lt {arg : List UInt8} {n : Nat} (h : intArg arg = .ok n) : n < 4294967296 := by
  simp only [intArg] at h
  by_cases hc : byteAt arg (strtoul0 arg).2 ≠ 0 ∨ toI64 (strtoul0 arg).1 > intMax ∨ toI64 (strtoul0 arg).1 < 0
  · rw [if_pos hc] at h; cases h
  · rw [if_neg hc, Except.ok.injEq] at h
    rw [← h]
    generalize toI64 (strtoul0 arg).1 = i at hc ⊢
    simp only [intMax] at hc
    omega

theorem writeInt_of_lt {old n : Nat} (h : old < 4294967296) : writeInt old n = n := by
  rw [writeInt, Nat.div_eq_of_lt h, Nat.zero_mul, Nat.zero_add]

theorem Settings.Low.write {isInt : F → Bool} {x : Settings F} (hx : x.Low isInt) {f : F} {n : Nat}
    (hn : isInt f → n < 4294967296) : (x.write f n).Low isInt := by
  intro g hg
  show Function.update x.number f n g < _
  by_cases hfg : g = f
  · rw [hfg, Function.update_self]; exact hn (hfg ▸ hg)
  · rw [Function.update_of_ne hfg]; exact hx g hg

theorem Settings.number_write {x : Settings F} {f g : F} {n : Nat} :
    (x.write f n).number g = (if f = g then some n else none).getD (x.number g) := by
  rw [Settings.write]
  by_cases hfg : f = g
  · subst hfg
    simp
  · simp [hfg, Function.update_of_ne (Ne.symm hfg)]

/-- **What a handler writes**: the value of the argument, in the full width
of the field, and nothing else. -/
theorem Settings.set_spec {isInt : F → Bool} {x y : Settings F} {s : Setting F} {arg : List UInt8} (ht : s.typed isInt)
    (hx : x.Low isInt) (h : x.set arg s = .ok y) : y.Low isInt ∧
      (∀ f, y.number f = (s.number? f arg).getD (x.number f)) ∧ y.log = (s.log? arg).getD x.log := by
  cases s with
  | path =>
    simp only [Settings.set] at h
    cases ha : pathArg arg with
    | error msg => rw [ha] at h; cases h
    | ok a =>
      rw [ha] at h
      cases h
      exact ⟨hx, fun f => rfl, by simp [Setting.log?, ha, Except.toOption]⟩
  | int f =>
    simp only [Settings.set] at h
    cases ha : intArg arg with
    | error msg => rw [ha] at h; cases h
    | ok n =>
      rw [ha] at h
      cases h
      dsimp only
      rw [writeInt_of_lt (hx f ht)]
      refine ⟨hx.write fun _ => intArg_lt ha, fun g => ?_, rfl⟩
      simp only [Settings.number_write, Setting.number?, ha, Except.toOption]
  | size f =>
    simp only [Settings.set] at h
    cases ha : sizeArg arg with
    | error msg => rw [ha] at h; cases h
    | ok n =>
      rw [ha] at h
      cases h
      refine ⟨hx.write fun hi => ?_, fun g => ?_, rfl⟩
      · simp [Setting.typed, hi] at ht
      · simp only [Settings.number_write, Setting.number?, ha, Except.toOption]
  | flag f =>
    simp only [Settings.set] at h
    cases ha : flagArg arg with
    | error msg => rw [ha] at h; cases h
    | ok n =>
      rw [ha] at h
      cases h
      refine ⟨hx.write fun hi => ?_, fun g => ?_, rfl⟩
      · simp [Setting.typed, hi] at ht
      · simp only [Settings.number_write, Setting.number?, ha, Except.toOption]

/-- A handler takes what it accepts, in any context. -/
theorem Settings.set_isOk (x : Settings F) (s : Setting F) (arg : List UInt8) : (x.set arg s).isOk = s.accepts arg := by
  cases s with
  | path => simp only [Settings.set, Setting.accepts]; cases pathArg arg <;> rfl
  | int f => simp only [Settings.set, Setting.accepts]; cases intArg arg <;> rfl
  | size f => simp only [Settings.set, Setting.accepts]; cases sizeArg arg <;> rfl
  | flag f => simp only [Settings.set, Setting.accepts]; cases flagArg arg <;> rfl

end

/-- The table sets every field by one kind of handler. -/
def Command.typed : Command → Bool
  | .cycle s => s.typed CycleField.isInt
  | .device | .listen => true
  | .server s => s.typed ServerField.isInt

theorem gCommands_typed : ∀ c ∈ gCommands, c.2.typed := by decide +kernel

/-! ### Runs of commands -/

def runEntries : List ConfEntry → ConfState → Except String ConfState
  | [], st => .ok st
  | (c, arg) :: es, st =>
    match c.run arg st with
    | .error msg => .error msg
    | .ok st => runEntries es st

theorem runEntries_cons {c : Command} {arg : List UInt8} {es : List ConfEntry} {st st' : ConfState} :
    runEntries ((c, arg) :: es) st = .ok st' ↔ ∃ st₁, c.run arg st = .ok st₁ ∧ runEntries es st₁ = .ok st' := by
  rw [runEntries]
  cases c.run arg st with
  | error msg => simp
  | ok st₁ => simp

/-- A line that says nothing, or has a command. -/
def CleanLine (line : List UInt8) : Prop := confReadline line = .again ∨ entry line ≠ none

theorem entry_some {line : List UInt8} {c : Command} {arg : List UInt8} : entry line = some (c, arg) ↔
    ∃ cmd i, confReadline line = .ok cmd arg ∧ findCommand cmd = some (i, c) := by
  simp only [entry]
  cases confReadline line with
  | again => simp
  | error msg => simp
  | ok cmd a =>
    cases hf : findCommand cmd with
    | none => simp [hf]
    | some ic =>
      obtain ⟨i, c'⟩ := ic
      simp only [hf, Option.map_some]
      constructor
      · intro h
        obtain ⟨rfl, rfl⟩ := Prod.mk.inj (Option.some.inj h)
        exact ⟨cmd, i, rfl, hf⟩
      · intro ⟨cmd', i', h1, h2⟩
        obtain ⟨rfl, rfl⟩ := Line.ok.inj h1
        rw [hf] at h2
        cases h2
        rfl

theorem entry_typed {line : List UInt8} {e : ConfEntry} (h : entry line = some e) : e.1.typed := by
  obtain ⟨cmd, i, -, hf⟩ := entry_some.mp h
  exact gCommands_typed _ (findCommand_global hf).2

/-- **Flat lines** are accepted if each is clean and their commands run. -/
theorem parseFlat_none {lines : List (List UInt8)} : ∀ {st st' : ConfState}, parseFlat lines st = (none, st') ↔
    (∀ line ∈ lines, CleanLine line) ∧ runEntries (lines.filterMap entry) st = .ok st' := by
  induction lines with
  | nil =>
    intro st st'
    simp [parseFlat, confParseLines, runEntries]
  | cons line lines ih =>
    intro st st'
    rw [parseFlat, confParseLines, List.forall_mem_cons]
    cases hr : confReadline line with
    | again =>
      have he : entry line = none := by rw [entry, hr]
      rw [List.filterMap_cons_none he]
      simp only [CleanLine, hr, true_or, true_and]
      exact ih
    | error msg =>
      have hclean : ¬CleanLine line := by simp [CleanLine, entry, hr]
      simp [hclean]
    | ok cmd arg =>
      by_cases hi : cmd = lit "include"
      · have hclean : ¬CleanLine line := by simp [CleanLine, entry, hr, hi, findCommand_include]
        simp [hclean, hi]
      simp only [hi, if_false]
      cases hf : findCommand cmd with
      | none =>
        have hclean : ¬CleanLine line := by simp [CleanLine, entry, hr, hf]
        simp [hclean, confCommand, hf]
      | some ic =>
        obtain ⟨i, c⟩ := ic
        have he : entry line = some (c, arg) := entry_some.mpr ⟨cmd, i, hr, hf⟩
        have hclean : CleanLine line := .inr (by simp [he])
        rw [List.filterMap_cons_some he, runEntries_cons, confCommand_eq hf]
        simp only [hclean, true_and]
        cases hc : c.run arg st with
        | error msg => simp
        | ok st₁ =>
          simp only [Except.ok.injEq, exists_eq_left']
          exact ih

theorem Command.set_isOk (c : Command) (arg : List UInt8) (st : ConfState) : (c.set arg st).isOk = c.accepts arg := by
  cases c with
  | cycle s =>
    rw [Command.set, Command.accepts, ← st.cycle.toSettings.set_isOk s arg]
    cases st.cycle.toSettings.set arg s <;> rfl
  | device => rfl
  | listen =>
    rw [Command.set, Command.accepts, confNewServer]
    cases portArg arg <;> rfl
  | server s =>
    rw [Command.set, Command.accepts, setServer]
    cases st.cycle.servers.getLast? with
    | none =>
      dsimp only
      rw [← st.defaultServer.set_isOk s arg]
      cases st.defaultServer.set arg s <;> rfl
    | some server =>
      dsimp only
      rw [← server.toSettings.set_isOk s arg]
      cases server.toSettings.set arg s <;> rfl

theorem Command.run_ok {c : Command} {arg : List UInt8} {st st' : ConfState} (h : c.run arg st = .ok st') :
    (c.isGlobal → st.cycle.servers = []) ∧ c.set arg st = .ok st' := by
  rw [Command.run] at h
  split at h
  · cases h
  · next hg => exact ⟨fun hc => by by_contra hne; exact hg ⟨hc, hne⟩, h⟩

theorem Command.run_isOk {c : Command} {arg : List UInt8} {st : ConfState} :
    (∃ st', c.run arg st = .ok st') ↔ c.accepts arg ∧ (c.isGlobal → st.cycle.servers = []) := by
  rw [← c.set_isOk arg st]
  constructor
  · intro ⟨st', h⟩
    obtain ⟨h1, h2⟩ := Command.run_ok h
    exact ⟨by rw [h2]; rfl, h1⟩
  · intro ⟨h1, h2⟩
    cases hs : c.set arg st with
    | error msg => rw [hs] at h1; cases h1
    | ok st' => exact ⟨st', by rw [Command.run, if_neg fun hg => hg.2 (h2 hg.1), hs]⟩

/-! ### What a command changes -/

/-- The high bytes of all that `int` commands write are zero. -/
structure ConfState.Low (st : ConfState) : Prop where
  cycle : st.cycle.toSettings.Low CycleField.isInt
  defaultServer : st.defaultServer.Low ServerField.isInt
  servers : ∀ s ∈ st.cycle.servers, s.toSettings.Low ServerField.isInt

theorem lastOf_cons {α : Type} (get : ConfEntry → Option α) (e : ConfEntry) (es : List ConfEntry) :
    lastOf get (e :: es) = (lastOf get es).or (get e) := by
  simp only [lastOf]
  cases hg : get e with
  | none => rw [List.filterMap_cons_none hg, Option.or_none]
  | some a =>
    rw [List.filterMap_cons_some hg]
    cases hl : es.filterMap get with
    | nil => rfl
    | cons b bs => simp [List.getLast?_cons]

theorem getD_or {α : Type} (a b : Option α) (c : α) : (a.or b).getD c = a.getD (b.getD c) := by
  cases a <;> rfl

/-- The entries that say nothing of servers leave them. -/
theorem override_cons_of_ne {x : Settings ServerField} {c : Command} {arg : List UInt8} {es : List ConfEntry}
    (h : ∀ s, c ≠ .server s) : override x ((c, arg) :: es) = override x es := by
  cases c with
  | server s => exact absurd rfl (h s)
  | cycle s | device | listen => simp only [override, lastOf_cons, serverNumber, serverLog, Option.or_none]

theorem override_cons {x y : Settings ServerField} {s : Setting ServerField} {arg : List UInt8} {es : List ConfEntry}
    (ht : s.typed ServerField.isInt) (hx : x.Low ServerField.isInt) (h : x.set arg s = .ok y) :
    override x ((.server s, arg) :: es) = override y es := by
  obtain ⟨-, hn, hl⟩ := Settings.set_spec ht hx h
  simp only [override, lastOf_cons, serverNumber, serverLog, getD_or, hn, hl]

/-! ### What the handlers do to the whole -/

section

variable {st st' : ConfState} {arg : List UInt8}

theorem set_cycle {s : Setting CycleField} (h : (Command.cycle s).set arg st = .ok st') :
    ∃ x, st.cycle.toSettings.set arg s = .ok x ∧ st'.cycle = { st.cycle with toSettings := x } ∧
      st'.defaultServer = st.defaultServer := by
  rw [Command.set] at h
  cases hx : st.cycle.toSettings.set arg s with
  | error msg => rw [hx] at h; cases h
  | ok x => rw [hx] at h; cases h; exact ⟨x, rfl, rfl, rfl⟩

theorem set_listen (h : Command.listen.set arg st = .ok st') : ∃ port, portArg arg = .ok port ∧
    st'.cycle = { st.cycle with servers := st.cycle.servers ++ [{ st.defaultServer with listenPort := port }] } ∧
    st'.defaultServer = st.defaultServer := by
  rw [Command.set, confNewServer] at h
  cases hp : portArg arg with
  | error msg => rw [hp] at h; cases h
  | ok port => rw [hp] at h; cases h; exact ⟨port, rfl, rfl, rfl⟩

/-- A server command in front of the first `listen`. -/
theorem set_server_default {s : Setting ServerField} (hs : st.cycle.servers = [])
    (h : (Command.server s).set arg st = .ok st') : ∃ x, st.defaultServer.set arg s = .ok x ∧ st'.cycle = st.cycle ∧
      st'.defaultServer = x := by
  simp only [Command.set, setServer, hs, List.getLast?_nil] at h
  cases hx : st.defaultServer.set arg s with
  | error msg => rw [hx] at h; cases h
  | ok x => rw [hx] at h; cases h; exact ⟨x, rfl, rfl, rfl⟩

/-- A server command behind it. -/
theorem set_server_last {s : Setting ServerField} {ss : List ServerSettings} {server : ServerSettings}
    (hs : st.cycle.servers = ss ++ [server]) (h : (Command.server s).set arg st = .ok st') :
    ∃ x, server.toSettings.set arg s = .ok x ∧
      st'.cycle = { st.cycle with servers := ss ++ [{ x with listenPort := server.listenPort }] } ∧
      st'.defaultServer = st.defaultServer := by
  simp only [Command.set, setServer, hs, List.getLast?_append, List.getLast?_singleton, Option.some_or,
    List.dropLast_concat] at h
  cases hx : server.toSettings.set arg s with
  | error msg => rw [hx] at h; cases h
  | ok x => rw [hx] at h; cases h; exact ⟨x, rfl, rfl, rfl⟩

/-- **The high bytes stay zero.** -/
theorem ConfState.Low.set {c : Command} (hlow : st.Low) (ht : c.typed) (h : c.set arg st = .ok st') : st'.Low := by
  cases c with
  | cycle s =>
    obtain ⟨x, hx, hc, hd⟩ := set_cycle h
    refine ⟨?_, by rw [hd]; exact hlow.defaultServer, ?_⟩
    · rw [hc]; exact (Settings.set_spec ht hlow.cycle hx).1
    · rw [hc]; exact hlow.servers
  | device => cases h; exact ⟨hlow.cycle, hlow.defaultServer, hlow.servers⟩
  | listen =>
    obtain ⟨port, -, hc, hd⟩ := set_listen h
    refine ⟨by rw [hc]; exact hlow.cycle, by rw [hd]; exact hlow.defaultServer, fun s hs => ?_⟩
    rw [hc] at hs
    rcases List.mem_append.mp hs with hs | hs
    · exact hlow.servers s hs
    · rw [List.mem_singleton.mp hs]; exact hlow.defaultServer
  | server s =>
    rcases List.eq_nil_or_concat st.cycle.servers with hs | ⟨ss, server, hs⟩
    · obtain ⟨x, hx, hc, hd⟩ := set_server_default hs h
      refine ⟨by rw [hc]; exact hlow.cycle, ?_, by rw [hc]; exact hlow.servers⟩
      rw [hd]
      exact (Settings.set_spec ht hlow.defaultServer hx).1
    · rw [List.concat_eq_append] at hs
      obtain ⟨x, hx, hc, hd⟩ := set_server_last hs h
      refine ⟨by rw [hc]; exact hlow.cycle, by rw [hd]; exact hlow.defaultServer, fun y hy => ?_⟩
      rw [hc] at hy
      rcases List.mem_append.mp hy with hy | hy
      · exact hlow.servers y (by rw [hs]; exact List.mem_append_left _ hy)
      · rw [List.mem_singleton.mp hy]
        exact (Settings.set_spec ht (hlow.servers server (by simp [hs])) hx).1

/-- What decides where the next command goes. -/
theorem set_servers_nil {c : Command} (h : c.set arg st = .ok st') :
    st'.cycle.servers = [] ↔ st.cycle.servers = [] ∧ c ≠ .listen := by
  cases c with
  | cycle s => obtain ⟨x, -, hc, -⟩ := set_cycle h; simp [hc]
  | device => cases h; simp [confNewDevice]
  | listen => obtain ⟨port, -, hc, -⟩ := set_listen h; simp [hc]
  | server s =>
    rcases List.eq_nil_or_concat st.cycle.servers with hs | ⟨ss, server, hs⟩
    · obtain ⟨x, -, hc, -⟩ := set_server_default hs h; simp [hc]
    · rw [List.concat_eq_append] at hs
      obtain ⟨x, -, hc, -⟩ := set_server_last hs h; simp [hc, hs]

end

/-- A server that `listen` begins, with its section. -/
def newServer (x : Settings ServerField) (s : List UInt8 × List ConfEntry) : ServerSettings :=
  { override x s.2 with listenPort := (portArg s.1).toOption.getD 0 }

theorem preamble_cons {c : Command} {arg : List UInt8} {es : List ConfEntry} (h : c ≠ .listen) :
    preamble ((c, arg) :: es) = (c, arg) :: preamble es := by
  simp [preamble, h]

theorem sections_cons {c : Command} {arg : List UInt8} {es : List ConfEntry} (h : c ≠ .listen) :
    sections ((c, arg) :: es) = sections es := by
  rw [sections, if_neg h]

/-- **Behind a `listen`** the commands are those of the last server, up to
the next `listen`. -/
theorem run_section {es : List ConfEntry} : ∀ {st st' : ConfState} {ss : List ServerSettings} {s : ServerSettings},
    (∀ e ∈ es, e.1.typed) → st.Low → st.cycle.servers = ss ++ [s] → runEntries es st = .ok st' →
    st'.cycle = { st.cycle with
      servers := ss ++ { override s.toSettings (preamble es) with listenPort := s.listenPort } ::
        (sections es).map (newServer st.defaultServer) } := by
  induction es with
  | nil =>
    intro st st' ss s _ _ hs h
    cases h
    simp only [preamble, List.takeWhile_nil, sections, List.map_nil]
    rw [show override s.toSettings [] = s.toSettings from rfl, ← hs]
  | cons e es ih =>
    intro st st' ss s ht hlow hs h
    obtain ⟨c, arg⟩ := e
    obtain ⟨hte, htes⟩ := List.forall_mem_cons.mp ht
    obtain ⟨st₁, h1, h2⟩ := runEntries_cons.mp h
    obtain ⟨hg, hset⟩ := Command.run_ok h1
    have hne : st.cycle.servers ≠ [] := by simp [hs]
    have hlow₁ := hlow.set hte hset
    cases c with
    | cycle s => exact absurd (hg rfl) hne
    | device => exact absurd (hg rfl) hne
    | listen =>
      obtain ⟨port, hp, hc, hd⟩ := set_listen hset
      rw [ih htes hlow₁ (by rw [hc, hs]) h2, hc, hd]
      simp [preamble, sections, newServer, hp, Except.toOption, override, lastOf]
    | server s' =>
      obtain ⟨x, hx, hc, hd⟩ := set_server_last hs hset
      rw [ih htes hlow₁ (by rw [hc]) h2, hc, hd, preamble_cons (by simp), sections_cons (by simp),
        override_cons hte (hlow.servers s (by simp [hs])) hx]

/-- `conf_cycle` with what the entries say instead of `x`. -/
def overrideCycle (x : Settings CycleField) (es : List ConfEntry) : Settings CycleField where
  number f := (lastOf (cycleNumber f) es).getD (x.number f)
  log := (lastOf cycleLog es).getD x.log

theorem overrideCycle_cons_of_ne {x : Settings CycleField} {c : Command} {arg : List UInt8} {es : List ConfEntry}
    (h : ∀ s, c ≠ .cycle s) : overrideCycle x ((c, arg) :: es) = overrideCycle x es := by
  cases c with
  | cycle s => exact absurd rfl (h s)
  | server s | device | listen => simp only [overrideCycle, lastOf_cons, cycleNumber, cycleLog, Option.or_none]

theorem overrideCycle_cons {x y : Settings CycleField} {s : Setting CycleField} {arg : List UInt8} {es : List ConfEntry}
    (ht : s.typed CycleField.isInt) (hx : x.Low CycleField.isInt) (h : x.set arg s = .ok y) :
    overrideCycle x ((.cycle s, arg) :: es) = overrideCycle y es := by
  obtain ⟨-, hn, hl⟩ := Settings.set_spec ht hx h
  simp only [overrideCycle, lastOf_cons, cycleNumber, cycleLog, getD_or, hn, hl]

/-- **From the first line on.** -/
theorem run_preamble {es : List ConfEntry} : ∀ {st st' : ConfState}, (∀ e ∈ es, e.1.typed) → st.Low →
    st.cycle.servers = [] → runEntries es st = .ok st' →
    st'.cycle = { overrideCycle st.cycle.toSettings (preamble es) with
      devices := st.cycle.devices ++ (preamble es).filterMap deviceFile
      servers := (sections es).map (newServer (override st.defaultServer (preamble es))) } := by
  induction es with
  | nil =>
    intro st st' _ _ hs h
    cases h
    simp only [preamble, List.takeWhile_nil, sections, List.map_nil, List.filterMap_nil, List.append_nil]
    rw [← hs]
    rfl
  | cons e es ih =>
    intro st st' ht hlow hs h
    obtain ⟨c, arg⟩ := e
    obtain ⟨hte, htes⟩ := List.forall_mem_cons.mp ht
    obtain ⟨st₁, h1, h2⟩ := runEntries_cons.mp h
    obtain ⟨hg, hset⟩ := Command.run_ok h1
    have hlow₁ := hlow.set hte hset
    cases c with
    | cycle s =>
      obtain ⟨x, hx, hc, hd⟩ := set_cycle hset
      rw [ih htes hlow₁ (by rw [hc, hs]) h2, hc, hd, preamble_cons (by simp), sections_cons (by simp),
        overrideCycle_cons hte hlow.cycle hx, override_cons_of_ne (by simp), List.filterMap_cons_none rfl]
    | device =>
      cases hset
      rw [ih htes hlow₁ hs h2, preamble_cons (by simp), sections_cons (by simp), overrideCycle_cons_of_ne (by simp),
        override_cons_of_ne (by simp)]
      simp [confNewDevice, deviceFile]
    | listen =>
      obtain ⟨port, hp, hc, hd⟩ := set_listen hset
      rw [run_section htes hlow₁ (by rw [hc, hs]) h2, hc, hd]
      simp [preamble, sections, newServer, hp, Except.toOption, override, overrideCycle, lastOf]
    | server s =>
      obtain ⟨x, hx, hc, hd⟩ := set_server_default hs hset
      rw [ih htes hlow₁ (by rw [hc, hs]) h2, hc, hd, preamble_cons (by simp), sections_cons (by simp),
        overrideCycle_cons_of_ne (by simp), override_cons hte hlow.defaultServer hx, List.filterMap_cons_none rfl]

theorem confInit_low (st : ConfState) : (confInit st).Low := by
  refine ⟨?_, ?_, fun s hs => by cases hs⟩
  · intro f _
    show cycleDefault.number f < _
    cases f <;> decide
  · intro f hf
    show serverDefault.number f < _
    cases f <;> first | decide | cases hf

/-- **What the commands of a configuration leave** is what it means. -/
theorem run_meaning {es : List ConfEntry} {st st' : ConfState} (ht : ∀ e ∈ es, e.1.typed)
    (h : runEntries es (confInit st) = .ok st') : st'.cycle = meaning es := by
  rw [run_preamble ht (confInit_low st) rfl h]
  simp only [meaning, overrideCycle, override, confInit, List.nil_append, getD_or]
  rfl

/-! ### What is refused -/

/-- **When commands run**: every argument is accepted, and no global command
stands behind a `listen`. -/
theorem runEntries_isOk {es : List ConfEntry} : ∀ {st : ConfState}, (∃ st', runEntries es st = .ok st') ↔
    (∀ e ∈ es, e.1.accepts e.2) ∧ ∀ before e after, es = before ++ e :: after → e.1.isGlobal →
      st.cycle.servers = [] ∧ ∀ e' ∈ before, e'.1 ≠ .listen := by
  induction es with
  | nil =>
    intro st
    simp [runEntries]
  | cons e es ih =>
    intro st
    obtain ⟨c, arg⟩ := e
    simp only [runEntries_cons]
    constructor
    · intro ⟨st', st₁, h1, h2⟩
      obtain ⟨hacc, hg⟩ := Command.run_isOk.mp ⟨st₁, h1⟩
      obtain ⟨haccs, hafter⟩ := ih.mp ⟨st', h2⟩
      have hnil := set_servers_nil (Command.run_ok h1).2
      refine ⟨List.forall_mem_cons.mpr ⟨hacc, haccs⟩, fun before e after he hglobal => ?_⟩
      cases before with
      | nil =>
        obtain ⟨rfl, rfl⟩ := List.cons.inj he
        exact ⟨hg hglobal, by simp⟩
      | cons b before =>
        obtain ⟨rfl, rfl⟩ := List.cons.inj he
        obtain ⟨h3, h4⟩ := hafter before e after rfl hglobal
        exact ⟨(hnil.mp h3).1, List.forall_mem_cons.mpr ⟨(hnil.mp h3).2, h4⟩⟩
    · intro ⟨haccs, hafter⟩
      obtain ⟨hacc, haccs⟩ := List.forall_mem_cons.mp haccs
      obtain ⟨st₁, h1⟩ := (@Command.run_isOk c arg st).mpr ⟨hacc, fun hg => (hafter [] _ es rfl hg).1⟩
      have hnil := set_servers_nil (Command.run_ok h1).2
      obtain ⟨st', h2⟩ := ih.mpr ⟨haccs, fun before e after he hglobal => by
        obtain ⟨h3, h4⟩ := hafter ((c, arg) :: before) e after (by rw [he]; rfl) hglobal
        obtain ⟨h5, h6⟩ := List.forall_mem_cons.mp h4
        exact ⟨hnil.mpr ⟨h3, h5⟩, h6⟩⟩
      exact ⟨st', st₁, h1, h2⟩

theorem parseFlat_isNone {lines : List (List UInt8)} {st : ConfState} : (parseFlat lines st).1 = none ↔
    (∀ line ∈ lines, CleanLine line) ∧ ∃ st', runEntries (lines.filterMap entry) st = .ok st' := by
  constructor
  · intro h
    obtain ⟨h1, h2⟩ := parseFlat_none.mp (show parseFlat lines st = (none, (parseFlat lines st).2) by rw [← h])
    exact ⟨h1, _, h2⟩
  · intro ⟨h1, st', h2⟩
    rw [parseFlat_none.mpr ⟨h1, h2⟩]

/-- **Flat lines are refused** for one of the reasons, and for no other. -/
theorem parseFlat_refused {lines : List (List UInt8)} {st : ConfState} (hs : st.cycle.servers = []) :
    (parseFlat lines st).1 ≠ none ↔ Refused lines := by
  rw [ne_eq, parseFlat_isNone, runEntries_isOk]
  constructor
  · intro h
    by_contra hr
    refine h ⟨fun line hl => ?_, fun e he => ?_, fun before e after he hglobal => ⟨hs, fun e' he' hlisten => ?_⟩⟩
    · cases hread : confReadline line with
      | again => exact .inl hread
      | error msg => exact absurd (.malformed hl hread) hr
      | ok cmd arg =>
        refine .inr fun hnone => ?_
        by_cases hi : cmd = lit "include"
        · exact hr (.notOpened hl (by rw [Includes, hread, hi]))
        · refine hr (.noCommand hl hread hi ?_)
          rw [entry, hread] at hnone
          exact Option.map_eq_none_iff.mp hnone
    · obtain ⟨line, hl, hentry⟩ := List.mem_filterMap.mp he
      by_contra hacc
      exact hr (.argument hl hentry (by simpa using hacc))
    · obtain ⟨l₁, l₂, rfl, h1, h2⟩ := List.filterMap_eq_append_iff.mp he
      obtain ⟨l₃, line, l₄, rfl, -, hentry, -⟩ := List.filterMap_eq_cons_iff.mp h2
      rw [← h1] at he'
      obtain ⟨line', hl', hentry'⟩ := List.mem_filterMap.mp he'
      have hlisten' : entry line' = some (.listen, e'.2) := by rw [hentry', ← hlisten]
      have hsplit : l₁ ++ (l₃ ++ line :: l₄) = (l₁ ++ l₃) ++ line :: l₄ := (List.append_assoc _ _ _).symm
      exact hr (.globalAfterListen hsplit hentry hglobal (List.mem_append_left _ hl') hlisten')
  · intro hr ⟨hclean, hacc, hafter⟩
    cases hr with
    | malformed hl hread => rcases hclean _ hl with h | h <;> simp [entry, hread] at h
    | notOpened hl hinc =>
      rw [Includes] at hinc
      rcases hclean _ hl with h | h <;> simp [entry, hinc, findCommand_include] at h
    | noCommand hl hread hi hf => rcases hclean _ hl with h | h <;> simp [entry, hread, hf] at h
    | argument hl hentry hrej =>
      have := hacc _ (List.mem_filterMap.mpr ⟨_, hl, hentry⟩)
      rw [hrej] at this
      cases this
    | @globalAfterListen before after line line' arg arg' c heq hentry hglobal hl' hentry' =>
      have hsplit : lines.filterMap entry = before.filterMap entry ++ (c, arg) :: after.filterMap entry := by
        rw [heq, List.filterMap_append, List.filterMap_cons_some hentry]
      exact (hafter _ _ _ hsplit hglobal).2 (.listen, arg') (List.mem_filterMap.mpr ⟨line', hl', hentry'⟩) rfl

/-! ## The law -/

/-- Lines as one text. -/
def joinLines (lines : List (List UInt8)) : List UInt8 := lines.flatMap fun line => line ++ [10]

theorem textLines_joinLines {lines : List (List UInt8)} (h : ∀ line ∈ lines, 10 ∉ line) :
    textLines (joinLines lines) = lines := by
  induction lines with
  | nil => rfl
  | cons line lines ih =>
    obtain ⟨hline, hlines⟩ := List.forall_mem_cons.mp h
    rw [joinLines, List.flatMap_cons, List.append_assoc, List.singleton_append, textLines_newline _ hline]
    exact congrArg _ (ih hlines)

/-- **What a configuration that is read comes to**: it is refused for one of
the reasons and for no other, and otherwise it is what it means, which is
also what one file of all its lines gives, whatever was read before. -/
structure ConfLaw (fs : List UInt8 → Option (List UInt8)) (filename text : List UInt8) (st : ConfState) : Prop where
  refused : (confParse fs filename st).1 = none ↔ Refused (expand fs 10 filename text)
  meaning : ∀ c, (confParse fs filename st).1 = some c → c = meaning ((expand fs 10 filename text).filterMap entry)
  flat : ∀ c, (confParse fs filename st).1 = some c → ∀ filename' st',
    (confParse (fun _ => some (joinLines (expand fs 10 filename text))) filename' st').1 = some c

section

variable {fs : List UInt8 → Option (List UInt8)} {filename text : List UInt8}

theorem confParse_refused (st : ConfState) (hf : fs filename = some text) (hok : TextOk fs 10 filename text) :
    (confParse fs filename st).1 = none ↔ Refused (expand fs 10 filename text) := by
  obtain ⟨h1, -⟩ := @confParseFile_expand fs 10 filename text (confInit st) hf hok
  rw [← parseFlat_refused (show (confInit st).cycle.servers = [] from rfl), ne_eq, ← h1, confParse]
  cases confParseFile fs (10 + 1) filename (confInit st) with
  | mk rc st' => cases rc <;> simp

theorem confParse_meaning {st : ConfState} {c : Cycle} (hf : fs filename = some text) (hok : TextOk fs 10 filename text)
    (hc : (confParse fs filename st).1 = some c) : c = meaning ((expand fs 10 filename text).filterMap entry) := by
  obtain ⟨h1, h2⟩ := @confParseFile_expand fs 10 filename text (confInit st) hf hok
  rw [confParse] at hc
  cases hp : confParseFile fs (10 + 1) filename (confInit st) with
  | mk rc st' =>
  rw [hp] at h1 h2 hc
  cases rc with
  | some msg => cases hc
  | none =>
    obtain rfl := Option.some.inj hc
    have hflat : parseFlat (expand fs 10 filename text) (confInit st) = (none, st') := Prod.ext (h1.mp rfl) h2.symm
    refine run_meaning (fun e he => ?_) (parseFlat_none.mp hflat).2
    obtain ⟨line, -, hentry⟩ := List.mem_filterMap.mp he
    exact entry_typed hentry

/-- A text without includes is its lines. -/
theorem expand_plain (h : ∀ line ∈ textLines text, ∀ arg, ¬Includes line arg) :
    expand fs 10 filename text = textLines text := by
  rw [expand]
  conv_rhs => rw [← List.flatMap_singleton' (textLines text)]
  refine List.flatMap_congr fun line hl => ?_
  cases hr : confReadline line with
  | again => rfl
  | error msg => rfl
  | ok cmd arg =>
    have hi : cmd ≠ lit "include" := fun he => h line hl arg (by rw [Includes, hr, he])
    simp only [hi, if_false]

/-- **The law of configuration files.** -/
theorem conf_parse_law (st : ConfState) (hf : fs filename = some text) (hok : TextOk fs 10 filename text) :
    ConfLaw fs filename text st := by
  refine ⟨confParse_refused st hf hok, fun c hc => confParse_meaning hf hok hc, fun c hc filename' st' => ?_⟩
  have hlines : textLines (joinLines (expand fs 10 filename text)) = expand fs 10 filename text :=
    textLines_joinLines fun line hl => expand_newline hl
  have hnot : ¬Refused (expand fs 10 filename text) := by
    intro hr
    rw [(confParse_refused st hf hok).mpr hr] at hc
    cases hc
  have hplain : ∀ line ∈ textLines (joinLines (expand fs 10 filename text)), ∀ arg, ¬Includes line arg := by
    intro line hl arg hi
    rw [hlines] at hl
    exact hnot (.notOpened hl hi)
  let fs' : List UInt8 → Option (List UInt8) := fun _ => some (joinLines (expand fs 10 filename text))
  have hfs' : fs' filename' = some (joinLines (expand fs 10 filename text)) := rfl
  have hok' : TextOk fs' 10 filename' (joinLines (expand fs 10 filename text)) := by
    refine ⟨fun line hl => ?_, fun line hl arg hi => absurd hi (hplain line hl arg)⟩
    rw [hlines] at hl
    exact expand_short hok hl
  have href := confParse_refused st' hfs' hok'
  rw [expand_plain hplain, hlines] at href
  show (confParse fs' filename' st').1 = some c
  cases hc' : (confParse fs' filename' st').1 with
  | none => exact absurd (href.mp hc') hnot
  | some c' =>
    have hmean := confParse_meaning hfs' hok' hc'
    rw [expand_plain hplain, hlines] at hmean
    rw [hmean, confParse_meaning hf hok hc]

end

/-- The static objects before the first call. -/
def ConfState.initial : ConfState where
  first := true
  cycle := ⟨⟨fun _ => 0, []⟩, [], []⟩
  defaultServer := ⟨fun _ => 0, []⟩
  reservedServers := []
  reservedDevices := []

/-- A file and one beside it that it includes. -/
def sampleFs (filename : List UInt8) : Option (List UInt8) :=
  if filename = lit "etc/main" then some (lit "include more\nlisten 81\n")
  else if filename = lit "etc/more" then some (lit "status_period 5\nlisten 80\ncapacity 1M\n")
  else none

/-- The file that a line includes. -/
def includeArg (line : List UInt8) : Option (List UInt8) :=
  match confReadline line with
  | .ok cmd arg => if cmd = lit "include" then some arg else none
  | _ => none

theorem includes_iff {line arg : List UInt8} : Includes line arg ↔ includeArg line = some arg := by
  rw [Includes, includeArg]
  cases confReadline line with
  | again => simp
  | error msg => simp
  | ok cmd a => simp

/-- A text that includes nothing. -/
theorem textOk_plain {fs : List UInt8 → Option (List UInt8)} {depth : Nat} {filename text : List UInt8} (hs : ShortLines text)
    (h : ∀ line ∈ textLines text, includeArg line = none) : TextOk fs (depth + 1) filename text := by
  refine ⟨hs, fun line hl arg hi => ?_⟩
  rw [includes_iff, h line hl] at hi
  cases hi

instance (text : List UInt8) : Decidable (ShortLines text) :=
  inferInstanceAs (Decidable (∀ line ∈ textLines text, line.length < pathLength))

/-- A `listen` in an included file ends the preamble of the file that
includes it. -/
theorem conf_parse_law_included : ConfLaw sampleFs (lit "etc/main") (lit "include more\nlisten 81\n") .initial := by
  have hmain : textLines (lit "include more\nlisten 81\n") = [lit "include more", lit "listen 81"] := by decide +kernel
  refine conf_parse_law _ (by decide +kernel) ⟨by decide +kernel, fun line hl arg hi => ?_⟩
  rw [includes_iff] at hi
  simp only [hmain, List.mem_cons, List.not_mem_nil, or_false] at hl
  rcases hl with rfl | rfl
  · obtain rfl : lit "more" = arg :=
      Option.some.inj ((show some (lit "more") = includeArg (lit "include more") by decide +kernel).trans hi)
    refine ⟨⟨by decide +kernel, fun _ => by decide +kernel⟩, fun included hf => ?_⟩
    obtain rfl : lit "status_period 5\nlisten 80\ncapacity 1M\n" = included :=
      Option.some.inj ((show some (lit "status_period 5\nlisten 80\ncapacity 1M\n") =
        sampleFs (includedFile (lit "etc/main") (lit "more")) by decide +kernel).trans hf)
    exact textOk_plain (by decide +kernel) (by decide +kernel)
  · rw [show includeArg (lit "listen 81") = none by decide +kernel] at hi
    cases hi

example : (confParse sampleFs (lit "etc/main") .initial).1.map (fun c => c.servers.map fun s =>
    (s.listenPort, s.number .statusPeriod, s.number .capacity)) = some [(80, 5, 1048576), (81, 5, 0)] := by decide +kernel

end OliveHc
