import Pagewright.Proofs.Imports
import Pagewright.Proofs.Source
import Pagewright.Proofs.Text.Trimming

namespace Pagewright.Imports

open Syntax

/-- A dotted module name whose root is neither the tool nor the project nor the language. -/
def IsForeign (module : Text) : Prop :=
  ∀ root ∈ ["spylt".toList, "src".toList, "__future__".toList],
    ¬(module = root ∨ root ++ ['.'] <+: module)

/-- The text of a `from` import goes on behind a backslash, or behind a comment, before anything
else stands in it. -/
def IsContinued (text : Text) : Prop :=
  ∃ blanks mark rest, text = "from".toList ++ blanks ++ mark :: rest ∧
    (∀ c ∈ blanks, Text.isBlank c = true) ∧ (mark = '\\' ∨ mark = '#')

section Roots

variable {root module : Text}

/-- The root of a module name is the name itself or what stands before its first dot. -/
theorem takeWhile_eq_root (h : '.' ∉ root) :
    module.takeWhile (· ≠ '.') = root ↔ module = root ∨ root ++ ['.'] <+: module := by
  constructor
  · rintro rfl
    have hsplit : module.takeWhile (· ≠ '.') ++ module.dropWhile (· ≠ '.') = module :=
      List.takeWhile_append_dropWhile
    have hhead := List.head?_dropWhile_not (fun c : Char => decide (c ≠ '.')) module
    cases hrest : module.dropWhile (· ≠ '.') with
    | nil =>
      rw [hrest, List.append_nil] at hsplit
      exact .inl hsplit.symm
    | cons c rest =>
      rw [hrest] at hsplit hhead
      obtain rfl : c = '.' := by simpa using hhead
      exact .inr ⟨rest, by simpa using hsplit⟩
  · have hroot : ∀ c ∈ root, decide (c ≠ '.') = true :=
      fun c hc => decide_eq_true fun hdot => h (hdot ▸ hc)
    rintro (rfl | ⟨rest, rfl⟩)
    · exact List.takeWhile_eq_self_iff.mpr hroot
    · rw [List.append_assoc, List.takeWhile_append_of_pos hroot]
      simp

theorem isLocal_eq_false : isLocal module = false ↔ IsForeign module := by
  have hroots : ∀ root ∈ localRoots, '.' ∉ root := by decide
  rw [isLocal, Bool.eq_false_iff, ne_eq, List.contains_iff_mem]
  constructor
  · intro h root hroot hmodule
    have heq := (takeWhile_eq_root (hroots root hroot)).mpr hmodule
    exact h (heq ▸ hroot)
  · intro h hroot
    exact h _ hroot ((takeWhile_eq_root (hroots _ hroot)).mp rfl)

end Roots

section Layout

variable {blanks rest : Text} {c : Char}

/-- Trimming keeps the start of a text that starts with `from` and is more than that. -/
theorem trim_from (hc : Text.isBlank c = false) :
    Text.trim ("from".toList ++ blanks ++ c :: rest) =
      "from".toList ++ blanks ++ c :: Text.trimRight rest := by
  have hstart : Text.trimLeft ("from".toList ++ blanks ++ c :: rest) =
      "from".toList ++ blanks ++ c :: rest := rfl
  rw [Text.trim, hstart, Text.trimRight, Text.dropEndWhile_append_cons hc]
  rfl

/-- Whether a text is taken for that of a relative import: its first character that is not blank,
behind `from`, decides it. -/
theorem isRelative_from (hblank : ∀ c ∈ blanks, Text.isBlank c = true)
    (hc : Text.isBlank c = false) :
    isRelative ("from".toList ++ blanks ++ c :: rest) = decide (c = '.') := by
  have hrest : "from".toList.isPrefixOf? ("from".toList ++ blanks ++ c :: rest) =
      some (blanks ++ c :: rest) := rfl
  have htrim : Text.trimLeft (blanks ++ c :: rest) = c :: rest := by
    rw [Text.trimLeft, List.dropWhile_append_of_pos hblank]
    exact List.dropWhile_cons_of_neg (by simp [hc])
  rw [isRelative, hrest]
  simp [htrim]

/-- The words of a `from` import in its text: behind `from` and blanks a name starts if the import
is absolute, or a dot stands there if it is relative, unless the text goes on behind a backslash or
a comment. -/
theorem from_text {u : Text} {level : Nat} {ts : List Token} (hopens : OpensImport level ts)
    (hnamed : AllNamed ts) (hwords : Words u ts) :
    ∃ blanks c rest, u = "from".toList ++ blanks ++ c :: rest ∧
      (∀ c ∈ blanks, Text.isBlank c = true) ∧ Text.isBlank c = false ∧
      (level = 0 ∧ c ≠ '.' ∨ level ≠ 0 ∧ (c = '.' ∨ c = '\\' ∨ c = '#')) := by
  obtain ⟨first, second, later, rfl, hfirst, hlevel⟩ := hopens
  cases hwords with
  | @more w gap rest _ _ _ written isGap words =>
    rw [hfirst] at written
    obtain rfl : w = "from".toList := written
    obtain ⟨w', rest', rfl, hw'⟩ := words.first
    obtain ⟨blanks, more, rfl, hblank, hmark⟩ := isGap
    cases more with
    | cons c more =>
      refine ⟨blanks, c, more ++ (w' ++ rest'), by simp, hblank, ?_⟩
      have hc := hmark c rfl
      refine ⟨by rcases hc with rfl | rfl <;> decide, ?_⟩
      rcases hlevel with ⟨hzero, -⟩ | ⟨hpos, -⟩
      · exact .inl ⟨hzero, by rcases hc with rfl | rfl <;> decide⟩
      · exact .inr ⟨hpos, .inr hc.symm⟩
    | nil =>
      rcases hlevel with ⟨hzero, id, hid⟩ | ⟨hpos, hdot⟩
      · have hwhole : Identifier.IsWhole id := hnamed second (by simp) id hid
        rw [hid] at hw'
        obtain rfl : w' = id := hw'
        obtain ⟨c, cs, rfl⟩ := List.exists_cons_of_ne_nil hwhole.ne_nil
        refine ⟨blanks, c, cs ++ rest', by simp, hblank, ?_, .inl ⟨hzero, ?_⟩⟩
        · by_contra hc
          exact hwhole.not_mem (Identifier.isBlank_not_name (by simpa using hc)) (.head _)
        · rintro rfl
          exact hwhole.not_mem (by decide +kernel) (.head _)
      · obtain ⟨dots, hdots⟩ : ∃ dots, w' = '.' :: dots := by
          rcases hdot with hdot | hdot
          · rw [hdot] at hw'
            exact ⟨_, hw'⟩
          · rw [hdot] at hw'
            exact ⟨_, hw'⟩
        exact ⟨blanks, '.', dots ++ rest', by simp [hdots], hblank, by decide,
          .inr ⟨hpos, .inl rfl⟩⟩

variable {path text t : Text} {s : Source}

/-- An absolute import of a parsed file is never taken for a relative one, and a relative one is
taken for what it is unless its text hides the dots. -/
theorem isRelative_eq_false [CharacterNames] (hs : Source.ofText path text = .ok s) {span : Span}
    {module : Option Text} {level : Nat} {names : List Alias}
    (hmem : .importFrom span module level names ∈ s.body) :
    isRelative (Text.trim (s.slice span)) = false ↔
      level = 0 ∨ IsContinued (Text.trim (s.slice span)) := by
  obtain ⟨ts, hopens, hnamed, hwords⟩ := (parse_placed (Source.parse_text hs)).2 _ hmem
  obtain ⟨blanks, c, rest, hu, hblank, hc, hlevel⟩ := from_text hopens hnamed hwords
  rw [Source.slice, hu, trim_from hc, isRelative_from hblank hc, decide_eq_false_iff_not]
  constructor
  · intro hdot
    rcases hlevel with ⟨hzero, -⟩ | ⟨-, hmark⟩
    · exact .inl hzero
    · exact .inr ⟨blanks, c, _, rfl, hblank, hmark.resolve_left hdot⟩
  · rintro (hzero | ⟨blanks', mark, rest', heq, hblank', hmark⟩)
    · rcases hlevel with ⟨-, hdot⟩ | ⟨hpos, -⟩
      · exact hdot
      · exact absurd hzero hpos
    · -- Both ways to cut the text give the same answer.
      have hmark' : Text.isBlank mark = false := by rcases hmark with rfl | rfl <;> decide
      have hsame : isRelative ("from".toList ++ blanks ++ c :: Text.trimRight rest) =
          decide (mark = '.') := heq ▸ isRelative_from hblank' hmark'
      rw [isRelative_from hblank hc] at hsame
      have hnot : mark ≠ '.' := by rcases hmark with rfl | rfl <;> decide
      exact fun hdot => hnot (of_decide_eq_true (hsame ▸ decide_eq_true hdot))

end Layout

/-- What is forwarded of a parsed file: the text of every plain import at its top level of modules
of third parties alone, and of every absolute `from` import there of a module of a third party. A
relative import of such a module is forwarded too if its text goes on behind a backslash before its
first dot, and only then. -/
theorem forwarded_iff [CharacterNames] {path text : Text} {s : Source}
    (hs : Source.ofText path text = .ok s) (t : Text) :
    t ∈ forwarded s ↔
      (∃ span names, .importNames span names ∈ s.body ∧ (∀ a ∈ names, IsForeign a.name) ∧
        t = Text.trim (s.slice span)) ∨
      ∃ span module level names, .importFrom span module level names ∈ s.body ∧
        IsForeign (module.getD []) ∧ t = Text.trim (s.slice span) ∧
        (level = 0 ∨ IsContinued t) := by
  rw [forwarded, List.mem_append, Text.mem_sortedSet, Text.mem_sortedSet, mem_plain, mem_from]
  simp only [isLocal_eq_false]
  refine or_congr_right ⟨?_, ?_⟩
  · rintro ⟨span, module, level, names, hmem, hrelative, hforeign, rfl⟩
    exact ⟨span, module, level, names, hmem, hforeign, rfl,
      (isRelative_eq_false hs hmem).mp hrelative⟩
  · rintro ⟨span, module, level, names, hmem, hforeign, rfl, hlevel⟩
    exact ⟨span, module, level, names, hmem, (isRelative_eq_false hs hmem).mpr hlevel, hforeign,
      rfl⟩

def continued : Source where
  path := "src/App.py"
  text := "from \\\n    .local import thing\n"
  body := [.importFrom ⟨0, 30⟩ (some "local") 1 [⟨"thing", none⟩]]

/-- A relative import that goes on behind a backslash before its dot is forwarded. -/
theorem forwarded_iff_continued :
    Source.ofText "src/App.py" continued.text = .ok continued ∧
    "from \\\n    .local import thing".toList ∈ forwarded continued := by
  have hfile : Source.ofText "src/App.py" continued.text = .ok continued := by rfl
  have hforeign : IsForeign "local" := by
    intro root hroot
    revert root
    decide
  have htext : "from \\\n    .local import thing".toList =
      Text.trim (continued.slice ⟨0, 30⟩) := by decide +kernel
  have hcontinued : IsContinued "from \\\n    .local import thing" :=
    ⟨[' '], '\\', "\n    .local import thing", by decide, List.forall_mem_singleton.mpr rfl,
      .inl rfl⟩
  exact ⟨hfile, (forwarded_iff hfile _).mpr
    (.inr ⟨_, _, _, _, .head _, hforeign, htext, .inr hcontinued⟩)⟩

/-- Its text is forwarded, although it is that of no absolute import. -/
theorem continued_forwarded :
    Source.ofText "src/App.py" continued.text = .ok continued ∧
    "from \\\n    .local import thing".toList ∈ forwarded continued ∧
    ¬((∃ span names, .importNames span names ∈ continued.body ∧ (∀ a ∈ names, IsForeign a.name) ∧
        "from \\\n    .local import thing".toList = Text.trim (continued.slice span)) ∨
      ∃ span module names, .importFrom span module 0 names ∈ continued.body ∧
        IsForeign (module.getD []) ∧
        "from \\\n    .local import thing".toList = Text.trim (continued.slice span)) := by
  refine ⟨by rfl, by decide +kernel, ?_⟩
  rintro (⟨span, names, hmem, -⟩ | ⟨span, module, names, hmem, -⟩)
  · cases List.mem_singleton.mp hmem
  · cases List.mem_singleton.mp hmem

end Pagewright.Imports
