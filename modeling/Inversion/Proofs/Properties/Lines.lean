/-
# Property lines, one after the other

`Line.Reads` says of every line what it asks for: nothing if it is blank or a comment, an entry
if a key and a value stand around a separator, and it is faulty otherwise. Lines are read so and
in no other way (`read_eq_iff`).

To load lines is to set the entries that they ask for, up to the first faulty one. So entries
that are written down, each on a line of its own, in any order, with blanks around their parts
and any lines between them that ask for nothing, are loaded again as they were
(`load_written`), and texts may be loaded in pieces that end with a line
(`load_sequential`).
-/
import Inversion.Proofs.Properties
import Inversion.Proofs.Text.Lines
import Inversion.Properties.Source

namespace Inversion

open Text (AllBlank Bare Ended)

namespace Line

/-! ### What a line asks for -/

/-- The first character that is not blank begins a comment. -/
def IsComment (cs : List Char) : Prop :=
  ∃ pad c rest, AllBlank pad ∧ (c = '#' ∨ c = '!') ∧ cs = pad ++ c :: rest

/-- Only blanks stand in front of the first separator. -/
def IsKeyless (cs : List Char) : Prop :=
  ∃ pad c rest, AllBlank pad ∧ isSeparator c ∧ cs = pad ++ c :: rest

/-- The line is neither blank nor a comment, and has no separator or an empty key. -/
structure Faulty (cs : List Char) : Prop where
  solid : ¬AllBlank cs
  uncommented : ¬IsComment cs
  unreadable : (∀ c ∈ cs, ¬isSeparator c) ∨ IsKeyless cs

/-- A text that can be written as a key. -/
structure IsKey (key : List Char) : Prop where
  nonempty : key ≠ []
  bare : Bare key
  plain : ∀ c ∈ key, ¬isSeparator c
  uncommented : ∀ c ∈ key.head?, c ≠ '#' ∧ c ≠ '!'

instance (key : List Char) : Decidable (IsKey key) :=
  decidable_of_iff (key ≠ [] ∧ Bare key ∧ key.all (!isSeparator ·) ∧
      key.head?.all fun c => c ≠ '#' ∧ c ≠ '!')
    ⟨fun ⟨hne, hbare, hplain, hhead⟩ =>
        ⟨hne, hbare, by simpa using hplain, by simpa [Option.all_eq_true] using hhead⟩,
      fun ⟨hne, hbare, hplain, hhead⟩ =>
        ⟨hne, hbare, by simpa using hplain, by simpa [Option.all_eq_true] using hhead⟩⟩

/-- A line with a key and a value around a separator, and blanks around these three. -/
inductive Shows (key value : List Char) : List Char → Prop
  | line {p₁ p₂ p₃ p₄ : List Char} {c : Char} (separator : isSeparator c) (before : AllBlank p₁)
    (behindKey : AllBlank p₂) (beforeValue : AllBlank p₃) (behind : AllBlank p₄) :
    Shows key value (p₁ ++ key ++ p₂ ++ c :: (p₃ ++ value ++ p₄))

inductive Reads : List Char → Line → Prop
  | blank {cs : List Char} (h : AllBlank cs) : Reads cs .skip
  | comment {cs : List Char} (h : IsComment cs) : Reads cs .skip
  | entry {cs key value : List Char} (h : Shows key value cs) (hkey : IsKey key)
    (hvalue : Bare value) : Reads cs (.entry (String.ofList key) (String.ofList value))
  | faulty {cs : List Char} (h : Faulty cs) : Reads cs (.invalid (String.ofList (Text.trim cs)))

section
variable {cs key value pad : List Char} {c : Char} {line : Line}

theorem not_isBlank_of_isSeparator (h : isSeparator c) : ¬Text.isBlank c := by
  have hc : c = '=' ∨ c = ':' := by simpa [isSeparator] using h
  rcases hc with rfl | rfl <;> decide

theorem not_isBlank_of_comment (h : c = '#' ∨ c = '!') : ¬Text.isBlank c := by
  rcases h with rfl | rfl <;> decide

theorem read_of_allBlank (h : AllBlank cs) : read cs = .skip := by
  rw [read, Text.trim_of_allBlank h, ofTrimmed]

theorem read_of_isComment (h : IsComment cs) : read cs = .skip := by
  obtain ⟨pad, c, rest, hpad, hc, rfl⟩ := h
  obtain ⟨rest', -, -, -, htrim⟩ := Text.trim_of_cons hpad (not_isBlank_of_comment hc) rest
  rw [read, htrim, ofTrimmed, if_pos hc]

/-- A trimmed line that is no comment is cut at its first separator. -/
theorem ofTrimmed_of_cut (front : List Char) (hhead : ∀ c ∈ front.head?, c ≠ '#' ∧ c ≠ '!')
    (hfront : ∀ c ∈ front, ¬isSeparator c) (hc : isSeparator c) (behind : List Char) :
    ofTrimmed (front ++ c :: behind) =
      if Text.trim front = [] then .invalid (String.ofList (front ++ c :: behind))
      else .entry (String.ofList (Text.trim front)) (String.ofList (Text.trim behind)) := by
  have hpass : ∀ d ∈ front, (!isSeparator d) = true := fun d hd => by simpa using hfront d hd
  have hdrop : (front ++ c :: behind).dropWhile (!isSeparator ·) = c :: behind := by
    rw [List.dropWhile_append_of_pos hpass, List.dropWhile_cons_of_neg (by simpa using hc)]
  have htake : (front ++ c :: behind).takeWhile (!isSeparator ·) = front := by
    rw [List.takeWhile_append_of_pos hpass, List.takeWhile_cons_of_neg (by simpa using hc),
      List.append_nil]
  have hfirst : ∃ e rest, front ++ c :: behind = e :: rest ∧ ¬(e = '#' ∨ e = '!') := by
    cases front with
    | nil =>
      refine ⟨c, behind, rfl, ?_⟩
      rintro (rfl | rfl) <;> exact absurd hc (by decide)
    | cons e front => exact ⟨e, front ++ c :: behind, rfl, not_or.mpr (hhead e rfl)⟩
  obtain ⟨e, rest, heq, he⟩ := hfirst
  unfold ofTrimmed
  rw [hdrop, htake, heq]
  simp only [if_neg he]

theorem ofTrimmed_of_no_separator (hcs : ∀ c ∈ cs, ¬isSeparator c) (hne : cs ≠ [])
    (hhead : ∀ c ∈ cs.head?, c ≠ '#' ∧ c ≠ '!') : ofTrimmed cs = .invalid (String.ofList cs) := by
  have hdrop : cs.dropWhile (!isSeparator ·) = [] :=
    List.dropWhile_eq_nil_iff.mpr fun c hc => by simpa using hcs c hc
  obtain ⟨c, rest, rfl⟩ := List.exists_cons_of_ne_nil hne
  unfold ofTrimmed
  rw [hdrop]
  simp only [if_neg (not_or.mpr (hhead c rfl))]

theorem read_of_shows (h : Shows key value cs) (hkey : IsKey key) (hvalue : Bare value) :
    read cs = .entry (String.ofList key) (String.ofList value) := by
  obtain ⟨hsep, hp₁, hp₂, hp₃, hp₄⟩ := h
  rename_i p₁ p₂ p₃ p₄ c
  obtain ⟨k, ks, rfl⟩ := List.exists_cons_of_ne_nil hkey.nonempty
  -- trimming stops behind the separator
  obtain ⟨rest, pad, hpad, hrest, htrim⟩ := Text.trim_of_cut (k :: ks ++ p₂) hp₁ (by simp)
    (fun d hd => hkey.bare.first d hd) (not_isBlank_of_isSeparator hsep) (p₃ ++ value ++ p₄)
  have hfront : ∀ d ∈ k :: ks ++ p₂, ¬isSeparator d := by
    intro d hd hd'
    rcases List.mem_append.mp hd with hd | hd
    · exact hkey.plain d hd hd'
    · exact not_isBlank_of_isSeparator hd' (hp₂ d hd)
  have htrimKey : Text.trim (k :: ks ++ p₂) = k :: ks := Text.trim_pad Text.allBlank_nil hkey.bare hp₂
  have htrimValue : Text.trim rest = value :=
    calc Text.trim rest = Text.trim (rest ++ pad) := (Text.trim_append Text.allBlank_nil rest hpad).symm
      _ = Text.trim (p₃ ++ value ++ p₄) := by rw [hrest]
      _ = value := Text.trim_pad hp₃ hvalue hp₄
  have hcut := ofTrimmed_of_cut (k :: ks ++ p₂) (fun d hd => hkey.uncommented d hd) hfront
    hsep rest
  rw [htrimKey, if_neg hkey.nonempty, htrimValue] at hcut
  rw [read, ← hcut, ← htrim, List.append_assoc p₁]

theorem read_of_faulty (h : Faulty cs) : read cs = .invalid (String.ofList (Text.trim cs)) := by
  obtain ⟨hsolid, hcomment, hwrong⟩ := h
  obtain ⟨pad, pad', hpad, hpad', hbare, heq⟩ := Text.exists_pads cs
  have hne : Text.trim cs ≠ [] := fun hnil => hsolid (Text.allBlank_of_trim hnil)
  have hhead : ∀ c ∈ (Text.trim cs).head?, c ≠ '#' ∧ c ≠ '!' := by
    intro c hc
    obtain ⟨rest, hrest⟩ := List.head?_eq_some_iff.mp hc
    refine not_or.mp fun hmark => hcomment ⟨pad, c, rest ++ pad', hpad, hmark, ?_⟩
    calc cs = pad ++ Text.trim cs ++ pad' := heq
      _ = pad ++ c :: (rest ++ pad') := by rw [hrest, List.append_assoc, List.cons_append]
  rw [read]
  rcases hwrong with hnone | ⟨pad, c, rest, hpad, hc, rfl⟩
  · refine ofTrimmed_of_no_separator (fun c hc => hnone c ?_) hne hhead
    rw [heq]
    simp [hc]
  · obtain ⟨rest', -, -, -, htrim⟩ := Text.trim_of_cons hpad (not_isBlank_of_isSeparator hc) rest
    rw [htrim]
    have hcut := ofTrimmed_of_cut [] (by simp) (by simp) hc rest'
    rwa [if_pos (Text.trim_of_allBlank Text.allBlank_nil), List.nil_append] at hcut

/-- A line that has a separator is cut at the first. -/
theorem exists_cut (h : ¬∀ c ∈ cs, ¬isSeparator c) : ∃ front c behind,
    (∀ d ∈ front, ¬isSeparator d) ∧ isSeparator c ∧ cs = front ++ c :: behind := by
  have hdrop : cs.dropWhile (!isSeparator ·) ≠ [] := fun hnil =>
    h fun c hc => by simpa using List.dropWhile_eq_nil_iff.mp hnil c hc
  obtain ⟨c, behind, hcut⟩ := List.exists_cons_of_ne_nil hdrop
  refine ⟨cs.takeWhile (!isSeparator ·), c, behind, fun d hd => ?_, ?_, ?_⟩
  · simpa using List.mem_takeWhile_imp hd
  · have hnot := List.head?_dropWhile_not (!isSeparator ·) cs
    rw [hcut] at hnot
    simpa using hnot
  · rw [← hcut, List.takeWhile_append_dropWhile]

/-- Every line is read. -/
theorem reads_read (cs : List Char) : Reads cs (read cs) := by
  by_cases hblank : AllBlank cs
  · rw [read_of_allBlank hblank]
    exact .blank hblank
  by_cases hcomment : IsComment cs
  · rw [read_of_isComment hcomment]
    exact .comment hcomment
  by_cases hfaulty : (∀ c ∈ cs, ¬isSeparator c) ∨ IsKeyless cs
  · have h : Faulty cs := ⟨hblank, hcomment, hfaulty⟩
    rw [read_of_faulty h]
    exact .faulty h
  · obtain ⟨hsome, hkeyed⟩ := not_or.mp hfaulty
    obtain ⟨front, c, behind, hfront, hc, rfl⟩ := exists_cut hsome
    obtain ⟨q, q', hq, hq', hkey, hqkey⟩ := Text.exists_pads front
    obtain ⟨r, r', hr, hr', hvalue, hrvalue⟩ := Text.exists_pads behind
    have hshows : Shows (Text.trim front) (Text.trim behind) (front ++ c :: behind) := by
      have hline : Shows (Text.trim front) (Text.trim behind) _ := .line hc hq hq' hr hr'
      rwa [← hqkey, ← hrvalue] at hline
    have hiskey : IsKey (Text.trim front) := by
      refine ⟨fun hnil => ?_, hkey, fun d hd => hfront d ?_, fun d hd => ?_⟩
      · exact hkeyed ⟨front, c, behind, Text.allBlank_of_trim hnil, hc, rfl⟩
      · rw [hqkey]
        simp [hd]
      · obtain ⟨rest, hrest⟩ := List.head?_eq_some_iff.mp hd
        refine not_or.mp fun hmark => hcomment ⟨q, d, rest ++ q' ++ c :: behind, hq, hmark, ?_⟩
        calc front ++ c :: behind = q ++ Text.trim front ++ q' ++ c :: behind := by rw [← hqkey]
          _ = q ++ d :: (rest ++ q' ++ c :: behind) := by simp [hrest]
    rw [read_of_shows hshows hiskey hvalue]
    exact .entry hshows hiskey hvalue

theorem read_eq_iff : read cs = line ↔ Reads cs line := by
  constructor
  · rintro rfl
    exact reads_read cs
  · rintro (h | h | ⟨h, hkey, hvalue⟩ | h)
    · exact read_of_allBlank h
    · exact read_of_isComment h
    · exact read_of_shows h hkey hvalue
    · exact read_of_faulty h

theorem read_eq_invalid_iff {content : String} :
    read cs = .invalid content ↔ Faulty cs ∧ content = String.ofList (Text.trim cs) := by
  rw [read_eq_iff]
  constructor
  · rintro ⟨⟩
    exact ⟨‹_›, rfl⟩
  · rintro ⟨h, rfl⟩
    exact .faulty h

/-- A carriage return at the end of a line does not count. -/
theorem read_return (cs : List Char) : read (cs ++ ['\r']) = read cs := by
  have hblank : AllBlank ['\r'] := by
    intro c hc
    rw [List.mem_singleton.mp hc]
    decide
  rw [read, read, ← List.nil_append cs, Text.trim_append Text.allBlank_nil cs hblank, List.nil_append]

/-- The first line of a text is read as what stands in front of the line feed. -/
theorem exists_line {l : List Char} (h : '\n' ∉ l) :
    ∃ l', read l' = read l ∧ ∀ cs, Text.lines (l ++ '\n' :: cs) = l' :: Text.lines cs := by
  obtain ⟨l', hl', hlines⟩ := Text.lines_append_newline h
  refine ⟨l', ?_, hlines⟩
  rcases hl' with rfl | rfl
  · rfl
  · exact (read_return l').symm

end
end Line

/-! ### Loading lines -/

/-- The error, for a text that stands behind `n` lines. -/
def LineError.later (n : Nat) (e : LineError) : LineError :=
  { e with line := e.line + n }

def LoadError.later (n : Nat) : LoadError → LoadError
  | line cause => line (cause.later n)
  | cause => cause

namespace Properties

/-- The store with what a line asks for. -/
def enter : Line → Properties → Properties
  | .entry key value, p => p.insert key value
  | _, p => p

section
variable {p q : Properties} {l : List Char} {e : LineError} {n : Nat}

/-- One line that is not faulty is entered. -/
theorem loadFrom_cons_of_fine (h : ¬Line.Faulty l) (n : Nat) (ls : List (List Char))
    (p : Properties) : loadFrom n (l :: ls) p = loadFrom (n + 1) ls (enter (Line.read l) p) := by
  rw [loadFrom]
  cases hl : Line.read l with
  | skip => rfl
  | entry key value => rfl
  | invalid content => exact absurd (Line.read_eq_invalid_iff.mp hl).1 h

theorem loadFrom_cons_of_faulty (h : Line.Faulty l) (n : Nat) (ls : List (List Char))
    (p : Properties) :
    loadFrom n (l :: ls) p = (.error ⟨n, String.ofList (Text.trim l)⟩, p) := by
  rw [loadFrom, Line.read_of_faulty h]

theorem loadFrom_append : ∀ (ls ms : List (List Char)) (n : Nat) (p : Properties),
    loadFrom n (ls ++ ms) p =
      match loadFrom n ls p with
      | (.ok (), q) => loadFrom (n + ls.length) ms q
      | (.error e, q) => (.error e, q)
  | [], _, _, _ => rfl
  | l :: ls, ms, n, p => by
    by_cases h : Line.Faulty l
    · rw [List.cons_append, loadFrom_cons_of_faulty h, loadFrom_cons_of_faulty h]
    · have hlength : n + (l :: ls).length = n + 1 + ls.length := by
        rw [List.length_cons]
        omega
      rw [List.cons_append, loadFrom_cons_of_fine h, loadFrom_cons_of_fine h, hlength]
      exact loadFrom_append ls ms (n + 1) _

theorem loadFrom_later (k : Nat) : ∀ (ls : List (List Char)) (n : Nat) (p : Properties),
    loadFrom (n + k) ls p = (loadFrom n ls p).map (·.mapError (·.later k)) id
  | [], _, _ => rfl
  | l :: ls, n, p => by
    by_cases h : Line.Faulty l
    · rw [loadFrom_cons_of_faulty h, loadFrom_cons_of_faulty h]
      rfl
    · rw [loadFrom_cons_of_fine h, loadFrom_cons_of_fine h, show n + k + 1 = n + 1 + k by omega]
      exact loadFrom_later k ls (n + 1) _

/-- Lines that are read alike are loaded alike. -/
theorem loadFrom_congr : ∀ {ls ms : List (List Char)}, ls.map Line.read = ms.map Line.read →
    ∀ (n : Nat) (p : Properties), loadFrom n ls p = loadFrom n ms p
  | [], [], _, _, _ => rfl
  | l :: ls, m :: ms, h, n, p => by
    obtain ⟨hl, hls⟩ := List.cons.inj h
    rw [loadFrom, loadFrom, hl]
    cases Line.read m with
    | skip => exact loadFrom_congr hls (n + 1) p
    | entry key value => exact loadFrom_congr hls (n + 1) (p.insert key value)
    | invalid content => rfl

theorem loadFrom_ok_iff : ∀ {ls : List (List Char)} {n : Nat} {p : Properties},
    (loadFrom n ls p).1 = .ok () ↔ ∀ l ∈ ls, ¬Line.Faulty l
  | [], _, _ => iff_of_true rfl fun _ hl => absurd hl List.not_mem_nil
  | l :: ls, n, p => by
    rw [List.forall_mem_cons]
    by_cases h : Line.Faulty l
    · rw [loadFrom_cons_of_faulty h]
      exact iff_of_false nofun fun hall => hall.1 h
    · rw [loadFrom_cons_of_fine h, loadFrom_ok_iff, and_iff_right h]

/-- An error tells the first faulty line, and the lines before it are loaded. -/
theorem loadFrom_error : ∀ {ls : List (List Char)} {n : Nat} {p : Properties},
    loadFrom n ls p = (.error e, q) → ∃ front l rest, ls = front ++ l :: rest ∧
      loadFrom n front p = (.ok (), q) ∧ Line.Faulty l ∧
        e = ⟨n + front.length, String.ofList (Text.trim l)⟩
  | [], _, _, h => by cases h
  | l :: ls, n, p, h => by
    by_cases hl : Line.Faulty l
    · rw [loadFrom_cons_of_faulty hl] at h
      cases h
      exact ⟨[], l, ls, rfl, rfl, hl, rfl⟩
    · rw [loadFrom_cons_of_fine hl] at h
      obtain ⟨front, m, rest, rfl, hfront, hm, rfl⟩ := loadFrom_error h
      refine ⟨l :: front, m, rest, rfl, ?_, hm, ?_⟩
      · rwa [loadFrom_cons_of_fine hl]
      · rw [List.length_cons, show n + 1 + front.length = n + (front.length + 1) by omega]

end

theorem load_lines (p : Properties) (text : String) : p.load .lines text =
    (loadFrom 1 (Text.lines text.toList) p).map (·.mapError .line) id := by
  rw [load, loadWith, loadLines]
  rcases loadFrom 1 (Text.lines text.toList) p with ⟨_ | ⟨⟩, q⟩ <;> rfl

theorem load_lines_ok_iff {p : Properties} {text : String} :
    (p.load .lines text).1 = .ok () ↔ ∀ l ∈ Text.lines text.toList, ¬Line.Faulty l := by
  rw [load_lines, ← loadFrom_ok_iff (n := 1) (p := p)]
  rcases loadFrom 1 (Text.lines text.toList) p with ⟨cause | ⟨⟩, q⟩
  · exact iff_of_false nofun nofun
  · exact iff_of_true rfl rfl

theorem load_lines_error {p q : Properties} {text : String} {e : LoadError}
    (h : p.load .lines text = (.error e, q)) :
    ∃ cause, e = .line cause ∧ loadFrom 1 (Text.lines text.toList) p = (.error cause, q) := by
  rw [load_lines] at h
  rcases hl : loadFrom 1 (Text.lines text.toList) p with ⟨cause | ⟨⟩, r⟩
  · rw [hl] at h
    cases h
    exact ⟨cause, rfl, rfl⟩
  · rw [hl] at h
    cases h

/-- A line feed at the end of a text does not count. -/
theorem loadFrom_newline (cs : List Char) : ∀ (n : Nat) (p : Properties),
    loadFrom n (Text.lines (cs ++ ['\n'])) p = loadFrom n (Text.lines cs) p := by
  induction cs using Text.lines_induction with
  | last l hl =>
    intro n p
    obtain ⟨l', hread, hlines⟩ := Line.exists_line hl
    rw [hlines, Text.lines]
    by_cases hnil : l = []
    · have hskip : Line.read l' = .skip := by
        rw [hread, hnil]
        exact Line.read_of_allBlank Text.allBlank_nil
      rw [loadFrom, hskip, hnil, Text.lines]
      rfl
    · rw [Text.lines_of_not_mem hl hnil]
      exact loadFrom_congr (by rw [List.map_singleton, List.map_singleton, hread]) n p
  | line l cs hl ih =>
    intro n p
    obtain ⟨l', -, hlines⟩ := Line.exists_line hl
    rw [List.append_assoc, List.cons_append, hlines, hlines, loadFrom, loadFrom]
    cases Line.read l' with
    | skip => exact ih (n + 1) p
    | entry key value => exact ih (n + 1) (p.insert key value)
    | invalid content => rfl

/-! ### Entries that are written down -/

/-- The text of some lines, each with a line feed at its end. -/
def ended (ls : List (List Char)) : List Char :=
  ls.flatMap (· ++ ['\n'])

/-- Lines that write some entries, each on a line of its own, with blank lines and comments
between them. -/
inductive Written : List (String × String) → List (List Char) → Prop
  | nil : Written [] []
  | aside {es : List (String × String)} {l : List Char} {ls : List (List Char)}
    (aside : AllBlank l ∨ Line.IsComment l) (rest : Written es ls) : Written es (l :: ls)
  | entry {key value : String} {es : List (String × String)} {l : List Char} {ls : List (List Char)}
    (line : Line.Shows key.toList value.toList l) (rest : Written es ls) :
    Written ((key, value) :: es) (l :: ls)

/-- The keys and the values of the store can be written on lines. -/
def Writable (p : Properties) : Prop :=
  ∀ e ∈ p.entries, Line.IsKey e.1.toList ∧ Bare e.2.toList

section
variable {es : List (String × String)} {ls : List (List Char)}

/-- The lines of a text are read as those that it was made of. -/
theorem lines_ended : ∀ {ls : List (List Char)}, (∀ l ∈ ls, '\n' ∉ l) →
    (Text.lines (ended ls)).map Line.read = ls.map Line.read
  | [], _ => rfl
  | l :: ls, h => by
    obtain ⟨hl, hls⟩ := List.forall_mem_cons.mp h
    obtain ⟨l', hread, hlines⟩ := Line.exists_line hl
    have hended : ended (l :: ls) = l ++ '\n' :: ended ls := by
      simp [ended]
    rw [hended, hlines, List.map_cons, List.map_cons, lines_ended hls, hread]

theorem loadFrom_written (h : Written es ls) (hes : ∀ e ∈ es, Line.IsKey e.1.toList ∧ Bare e.2.toList) :
    ∀ (n : Nat) (p : Properties), loadFrom n ls p = (.ok (), p.insertAll es) := by
  induction h with
  | nil => exact fun n p => rfl
  | aside aside rest ih =>
    intro n p
    have hskip : Line.read _ = .skip := aside.elim Line.read_of_allBlank Line.read_of_isComment
    rw [loadFrom, hskip]
    exact ih hes (n + 1) p
  | entry line rest ih =>
    intro n p
    obtain ⟨⟨hkey, hvalue⟩, hrest⟩ := List.forall_mem_cons.mp hes
    rw [loadFrom, Line.read_of_shows line hkey hvalue, String.ofList_toList, String.ofList_toList]
    exact ih hrest (n + 1) _

end

/-- The entries of a store make the store again when the lines that write them are loaded. Keys
are not empty, have no blank at an end and no separator, and do not start as a comment does;
values have no blank at an end. The entries may be written in any order, with any blanks around
the keys, the separators and the values, which may be carriage returns in front of the line
feeds, and with blank lines and comments everywhere; and the last line may lack its line feed. -/
theorem load_written (p : Properties) (hp : p.Writable) (es : List (String × String))
    (hes : es.Perm p.entries) (ls : List (List Char)) (hw : Written es ls)
    (hls : ∀ l ∈ ls, '\n' ∉ l) (text : String)
    (htext : text.toList = ended ls ∨ text.toList ++ ['\n'] = ended ls) :
    empty.load .lines text = (.ok (), p) := by
  have hlines : loadFrom 1 (Text.lines text.toList) empty = loadFrom 1 (Text.lines (ended ls)) empty := by
    rcases htext with htext | htext
    · rw [htext]
    · rw [← htext, loadFrom_newline]
  have hwritable : ∀ e ∈ es, Line.IsKey e.1.toList ∧ Bare e.2.toList :=
    fun e he => hp e (hes.mem_iff.mp he)
  rw [load_lines, hlines, loadFrom_congr (lines_ended hls), loadFrom_written hw hwritable,
    insertAll_of_perm hes]
  rfl

/-- A value that looks like an entry, one that looks like a comment, and one without a
character. -/
def harbour : Properties :=
  ofList [("café name", "a=b: c"), ("port", "#8080"), ("void", "")]

def harbourLines : List (List Char) :=
  [['!', ' ', 'o', 'n', 'e', '\r'],
    [' '] ++ "port".toList ++ ['\t', ' '] ++ ':' :: ([' '] ++ "#8080".toList ++ [' ', '\r']),
    ['\u3000', '\r'],
    [] ++ "café name".toList ++ [] ++ '=' :: ([] ++ "a=b: c".toList ++ []),
    ['\t', '#', 'p', 'o', 'r', 't', '=', '1'],
    [] ++ "void".toList ++ [] ++ '=' :: ([' '] ++ "".toList ++ [])]

def harbourText : String :=
  "! one\r\n port\t : #8080 \r\n\u3000\r\ncafé name=a=b: c\n\t#port=1\nvoid= "

theorem load_written_of_harbour :
    harbour.Writable ∧
      (∃ es, es.Perm harbour.entries ∧ es ≠ harbour.entries ∧ Written es harbourLines) ∧
      (∀ l ∈ harbourLines, '\n' ∉ l) ∧ harbourText.toList ++ ['\n'] = ended harbourLines ∧
      empty.load .lines harbourText = (.ok (), harbour) := by
  have hwritable : harbour.Writable := by
    unfold Writable
    decide +kernel
  have hwritten : Written [("port", "#8080"), ("café name", "a=b: c"), ("void", "")] harbourLines :=
    .aside (.inr ⟨[], '!', _, by decide, .inr rfl, rfl⟩) <|
    .entry (.line (by decide) (by decide) (by decide) (by decide) (by decide)) <|
    .aside (.inl (by decide)) <|
    .entry (.line (by decide) (by decide) (by decide) (by decide) (by decide)) <|
    .aside (.inr ⟨['\t'], '#', _, by decide, .inl rfl, rfl⟩) <|
    .entry (.line (by decide) (by decide) (by decide) (by decide) (by decide)) .nil
  have hperm : [("port", "#8080"), ("café name", "a=b: c"), ("void", "")].Perm harbour.entries := by
    decide +kernel
  have hlines : ∀ l ∈ harbourLines, '\n' ∉ l := by decide +kernel
  have htext : harbourText.toList ++ ['\n'] = ended harbourLines := by decide +kernel
  exact ⟨hwritable, ⟨_, hperm, by decide +kernel, hwritten⟩, hlines, htext,
    load_written harbour hwritable _ hperm harbourLines hwritten hlines harbourText (.inr htext)⟩

/-! ### Texts in pieces -/

/-- To load a text behind another, which is empty or ends with a line feed, is to load the first
and, if that succeeds, the second, whose errors then tell a line that is later by the number of
lines of the first. A text is loaded if none of its lines is faulty. Otherwise the error tells the
first line that is, and the store is what it is once the lines before that one are loaded. -/
theorem load_sequential (p : Properties) :
    (∀ a b : String, Ended a.toList →
      (Text.lines a.toList).length = a.toList.count '\n' ∧
      p.load .lines (a ++ b) =
        match p.load .lines a with
        | (.ok (), q) => (q.load .lines b).map (·.mapError (·.later (Text.lines a.toList).length)) id
        | (.error e, q) => (.error e, q)) ∧
    (∀ text, (p.load .lines text).1 = .ok () ↔ ∀ l ∈ Text.lines text.toList, ¬Line.Faulty l) ∧
    ∀ text e q, p.load .lines text = (.error e, q) →
      ∃ a b l rest, text = a ++ b ∧ Ended a.toList ∧ p.load .lines a = (.ok (), q) ∧
        Text.lines text.toList = Text.lines a.toList ++ l :: rest ∧
        e = .line ⟨(Text.lines a.toList).length + 1, String.ofList (Text.trim l)⟩ ∧
        Line.Faulty l ∧ ∀ m ∈ Text.lines a.toList, ¬Line.Faulty m := by
  refine ⟨fun a b ha => ⟨Text.length_lines ha, ?_⟩, fun text => load_lines_ok_iff,
    fun text e q h => ?_⟩
  · rw [load_lines, load_lines, String.toList_append, Text.lines_append ha, loadFrom_append]
    rcases loadFrom 1 (Text.lines a.toList) p with ⟨cause | ⟨⟩, q⟩
    · rfl
    · show Prod.map _ id (loadFrom (1 + (Text.lines a.toList).length) _ q) = Prod.map _ id (q.load .lines b)
      rw [loadFrom_later, load_lines]
      rcases loadFrom 1 (Text.lines b.toList) q with ⟨cause | ⟨⟩, r⟩ <;> rfl
  · obtain ⟨cause, rfl, hload⟩ := load_lines_error h
    obtain ⟨front, l, rest, hlines, hfront, hl, rfl⟩ := loadFrom_error hload
    obtain ⟨a, b, htext, ha, rfl, -⟩ := Text.exists_prefix (by simp) hlines
    have hloaded : p.load .lines (String.ofList a) = (.ok (), q) := by
      rw [load_lines, String.toList_ofList, hfront]
      rfl
    refine ⟨String.ofList a, String.ofList b, l, rest, ?_, ?_, hloaded, ?_, ?_, hl, ?_⟩
    · rw [← String.toList_inj, htext]
      simp
    · rwa [String.toList_ofList]
    · rwa [String.toList_ofList]
    · rw [String.toList_ofList, Nat.add_comm]
    · exact load_lines_ok_iff.mp (congrArg Prod.fst hloaded)

/-- The second piece overwrites what the first has set, and breaks off at its second line, which
is the fifth of both. -/
theorem load_sequential_of_pieces :
    let a := "port=1\r\n\nhost: local\n"
    let b := "port=2\n =3\nhost=far\n"
    let p := (empty.insert "port" "2").insert "host" "local"
    Ended a.toList ∧ (empty.load .lines a).1 = .ok () ∧
      empty.load .lines (a ++ b) = (.error (.line ⟨5, "=3"⟩), p) ∧
      ∃ front l rest, (Text.lines (a ++ b).toList) = front ++ l :: rest ∧ front.length + 1 = 5 ∧
        Line.Faulty l ∧ ∀ m ∈ front, ¬Line.Faulty m := by
  intro a b p
  have ha : Ended a.toList := by decide +kernel
  obtain ⟨happend, -, herror⟩ := load_sequential empty
  have hfirst : empty.load .lines a = (.ok (), (empty.insert "port" "1").insert "host" "local") := by
    decide +kernel
  have hsecond : ((empty.insert "port" "1").insert "host" "local").load .lines b =
      (.error (.line ⟨2, "=3"⟩), p) := by decide +kernel
  have hcount : (Text.lines a.toList).length = 3 := by decide +kernel
  have hboth : empty.load .lines (a ++ b) = (.error (.line ⟨5, "=3"⟩), p) := by
    rw [(happend a b ha).2, hfirst, hcount]
    show Prod.map _ id (load .lines b _) = _
    rw [hsecond]
    rfl
  obtain ⟨front, tail, l, rest, -, -, -, hlines, heq, hl, hfine⟩ := herror _ _ _ hboth
  have hnumber : 5 = (Text.lines front.toList).length + 1 :=
    congrArg LineError.line (LoadError.line.inj heq)
  exact ⟨ha, by rw [hfirst], hboth, _, l, rest, hlines, hnumber.symm, hl, hfine⟩

end Properties
end Inversion
