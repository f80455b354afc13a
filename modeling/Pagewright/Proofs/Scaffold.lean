import Mathlib
import Pagewright.Proofs.Json.Reading
import Pagewright.Scaffold

namespace Pagewright.Scaffold

open Json

variable {c d : Char} {name : Text} {n : Nat}

/-- The characters of a package name: lower-case letters and digits of ASCII, and the marks. -/
def IsPackageChar (c : Char) : Prop :=
  c.isLower = true ∨ c.isDigit = true ∨ c = '-' ∨ c = '_' ∨ c = '.'

theorem isPackageMark_iff : isPackageMark c = true ↔ c = '.' ∨ c = '_' ∨ c = '-' := by
  simp [isPackageMark, or_assoc]

theorem isUpper_iff : c.isUpper = true ↔ 65 ≤ c.toNat ∧ c.toNat ≤ 90 := by
  simp [Char.isUpper, UInt32.le_iff_toNat_le, ← Char.toNat_val]

theorem isLower_iff : c.isLower = true ↔ 97 ≤ c.toNat ∧ c.toNat ≤ 122 := by
  simp [Char.isLower, UInt32.le_iff_toNat_le, ← Char.toNat_val]

theorem isDigit_iff : c.isDigit = true ↔ 48 ≤ c.toNat ∧ c.toNat ≤ 57 := by
  simp [Char.isDigit, UInt32.le_iff_toNat_le, ← Char.toNat_val]

/-- Whatever a character is, it becomes characters of a package name. -/
theorem isPackageChar_packageChars (h : d ∈ packageChars c) : IsPackageChar d := by
  unfold packageChars at h
  split at h
  · rename_i hword
    rw [List.mem_singleton.mp h]
    by_cases halpha : c.isAlpha = true
    · exact .inl ((Char.isLower_toLower_eq_isAlpha c).trans halpha)
    · have hupper : ¬c.isUpper = true := by
        intro hupper
        simp [Char.isAlpha, hupper] at halpha
      rw [Char.toLower_eq_of_not_isUpper hupper]
      have hdigit : c.isDigit = true := by
        simpa [Char.isAlphanum, halpha] using hword
      exact .inr (.inl hdigit)
  · split at h
    · rename_i hmark
      rw [List.mem_singleton.mp h]
      rcases isPackageMark_iff.mp hmark with rfl | rfl | rfl <;> simp [IsPackageChar]
    · have hrest : ∀ e ∈ ['i', '-', 'k'], IsPackageChar e := by simp [IsPackageChar]
      apply hrest
      split at h
      · simp at h
        rcases h with rfl | rfl <;> simp
      · split at h <;> simp [List.mem_singleton.mp h]

/-- The characters of a package name stay what they are. -/
theorem packageChars_eq (h : IsPackageChar c) : packageChars c = [c] := by
  have hword (h : c.isLower = true ∨ c.isDigit = true) : packageChars c = [c] := by
    have hupper : ¬c.isUpper = true := by
      rw [isLower_iff, isDigit_iff] at h
      rw [isUpper_iff]
      omega
    have halphanum : c.isAlphanum = true := by
      simpa [Char.isAlphanum, Char.isAlpha, hupper] using h
    rw [packageChars, if_pos halphanum, Char.toLower_eq_of_not_isUpper hupper]
  rcases h with hlower | hdigit | rfl | rfl | rfl
  · exact hword (.inl hlower)
  · exact hword (.inr hdigit)
  · rfl
  · rfl
  · rfl

/-- What is left of a name, from its first letter or digit on. -/
def cleaned (name : Text) : Text :=
  (name.flatMap packageChars).dropWhile isPackageMark

theorem cleaned_chars (name : Text) : ∀ c ∈ cleaned name, IsPackageChar c := by
  intro c hc
  obtain ⟨d, -, hd⟩ := List.mem_flatMap.mp (List.dropWhile_subset _ hc)
  exact isPackageChar_packageChars hd

theorem cleaned_head (name : Text) : ∀ c ∈ (cleaned name).head?, isPackageMark c = false := by
  intro c hc
  have hhead := List.head?_dropWhile_not isPackageMark (name.flatMap packageChars)
  rw [cleaned] at hc
  rw [Option.mem_def.mp hc] at hhead
  simpa using hhead

/-- The default stands in for a name that nothing is left of. -/
theorem packageName_cases (name : Text) :
    packageName name = defaultPackageName ∨
      cleaned name ≠ [] ∧ packageName name = cleaned name := by
  by_cases hempty : (cleaned name).isEmpty = true
  · exact .inl (if_pos hempty)
  · exact .inr ⟨fun hnil => hempty (List.isEmpty_iff.mpr hnil), if_neg hempty⟩

theorem defaultPackageName_eq :
    defaultPackageName = ['s', 'p', 'y', 'l', 't', '-', 'a', 'p', 'p'] := rfl

theorem packageName_ne_nil (name : Text) : packageName name ≠ [] := by
  rcases packageName_cases name with hdefault | ⟨hne, hcleaned⟩
  · simp [hdefault, defaultPackageName_eq]
  · rwa [hcleaned]

theorem packageName_chars (name : Text) : ∀ c ∈ packageName name, IsPackageChar c := by
  rcases packageName_cases name with hdefault | ⟨-, hcleaned⟩
  · simp [hdefault, defaultPackageName_eq, IsPackageChar]
  · rw [hcleaned]
    exact cleaned_chars name

theorem packageName_head (name : Text) :
    ∀ c ∈ (packageName name).head?, isPackageMark c = false := by
  rcases packageName_cases name with hdefault | ⟨-, hcleaned⟩
  · simp [hdefault, defaultPackageName_eq, isPackageMark]
  · rw [hcleaned]
    exact cleaned_head name

/-- A name that is a package name already is kept. -/
theorem packageName_eq (hne : name ≠ []) (hchars : ∀ c ∈ name, IsPackageChar c)
    (hhead : ∀ c ∈ name.head?, isPackageMark c = false) : packageName name = name := by
  have hsame : name.flatMap packageChars = name := by
    rw [List.flatMap_congr fun c hc => packageChars_eq (hchars c hc)]
    simp
  have hkept : name.dropWhile isPackageMark = name := by
    cases name with
    | nil => rfl
    | cons c cs => exact List.dropWhile_cons_of_neg (by simp [hhead c rfl])
  rw [packageName, hsame, hkept]
  simp [hne]

/-- No character of a package name is escaped inside quotes. -/
theorem escapeChar_part (h : IsPackageChar c) : escapeChar c = [c] := by
  have hcode : 45 ≤ c.toNat ∧ c.toNat ≠ 92 := by
    rcases h with hlower | hdigit | rfl | rfl | rfl
    · rw [isLower_iff] at hlower
      omega
    · rw [isDigit_iff] at hdigit
      omega
    · simp
    · simp
    · simp
  apply escapeChar_plain
  · rintro rfl
    simp at hcode
  · rintro rfl
    simp at hcode
  · omega

def otherMembers : List (Text × Json) :=
  [ ("version", .string "0.1.0")
  , ("private", .bool true)
  , ("scripts", .object
      [("interface", .string "spylt interface"), ("build", .string "spylt build")])
  , ("devDependencies", .object []) ]

def otherLines : Text :=
  "\n" ++ document
    [ "  \"version\": \"0.1.0\","
    , "  \"private\": true,"
    , "  \"scripts\": \x7b"
    , "    \"interface\": \"spylt interface\","
    , "    \"build\": \"spylt build\""
    , "  \x7d,"
    , "  \"devDependencies\": \x7b\x7d"
    , "\x7d" ]

theorem otherLines_text : otherLines =
    "\n  ".toList ++ (quote "version" ++ ':' :: ' ' :: (quote "0.1.0" ++ ',' ::
    ("\n  ".toList ++ (quote "private" ++ ':' :: ' ' :: 't' :: 'r' :: 'u' :: 'e' :: ',' ::
    ("\n  ".toList ++ (quote "scripts" ++ ':' :: ' ' :: '{' ::
    ("\n    ".toList ++ (quote "interface" ++ ':' :: ' ' :: (quote "spylt interface" ++ ',' ::
    ("\n    ".toList ++ (quote "build" ++ ':' :: ' ' :: (quote "spylt build" ++
      ("\n  ".toList ++ '}' :: ',' ::
    ("\n  ".toList ++ (quote "devDependencies" ++ ':' :: ' ' :: '{' :: '}' ::
      ("\n".toList ++ '}' :: ['\n'])))))))))))))))) := by
  decide +kernel

theorem readEntries_otherLines (n : Nat) :
    readEntries (n + 7) otherLines = some (otherMembers, ['\n']) := by
  have hline : IsGap "\n".toList := by simp [IsGap]
  have houter : IsGap "\n  ".toList := by simp [IsGap]
  have hinner : IsGap "\n    ".toList := by simp [IsGap]
  rw [otherLines_text]
  apply readEntries_more houter (readValue_quote _ _ _)
  apply readEntries_more houter (readValue_true _ _)
  apply readEntries_more houter
  · apply readValue_object hinner
    apply readEntries_more hinner (readValue_quote _ _ _)
    exact readEntries_last hinner houter (readValue_quote _ _ _)
  · exact readEntries_last houter hline (readValue_emptyObject _ _)

/-- The description of a package holds its name between quotes as it is. -/
theorem packageDescription_text (name : Text) :
    packageDescription name =
      '\x7b' :: ("\n  ".toList ++ (quote "name" ++ ':' :: ' ' :: '"' ::
        (name ++ '"' :: ',' :: otherLines))) := by
  have hstart : '\x7b' :: ("\n  ".toList ++ (quote "name" ++ [':', ' ', '"'])) =
      "\x7b".toList ++ ('\n' :: "  \"name\": \"".toList) := by decide +kernel
  have hquote : "\",".toList = ['"', ','] := by decide
  have hline : "\n".toList = ['\n'] := by decide
  calc packageDescription name
      = ("\x7b".toList ++ ('\n' :: "  \"name\": \"".toList)) ++
          (name ++ '"' :: ',' :: otherLines) := by
        simp only [packageDescription, document, otherLines, hquote, hline, List.flatMap_cons,
          List.append_assoc, List.cons_append, List.nil_append]
    _ = _ := by
        rw [← hstart]
        simp only [List.append_assoc, List.cons_append, List.nil_append]

/-- The package description of a package name is one of an object with this name as its first
member. -/
theorem read?_packageDescription (hchars : ∀ c ∈ name, IsPackageChar c) :
    read? (packageDescription name) =
      some (.object (("name", .string name) :: otherMembers)) := by
  have hplain : name.flatMap escapeChar = name := by
    rw [List.flatMap_congr fun c hc => escapeChar_part (hchars c hc)]
    simp
  have hquote : '"' :: (name ++ '"' :: ',' :: otherLines) = quote name ++ ',' :: otherLines := by
    rw [quote_append, hplain]
  have houter : IsGap "\n  ".toList := by simp [IsGap]
  have hline : IsGap ['\n'] := by simp [IsGap]
  rw [packageDescription_text, hquote]
  apply read?_eq hline
  intro n hn
  obtain ⟨m, rfl⟩ : ∃ m, n = m + 8 := by
    refine ⟨n - 8, ?_⟩
    simp [quote] at hn
    omega
  refine readValue_object houter ?_
  exact readEntries_more houter (readValue_quote _ _ _) (readEntries_otherLines m)

/-- Every project has a package name: it is not empty, has no characters but lower-case letters,
digits and marks, starts with none of the marks, and is its own package name. The package
description of the project has it as its name; nothing else in it goes by the project. -/
theorem packageName_usable (name : Text) :
    packageName name ≠ [] ∧
      (∀ c ∈ packageName name,
        c.isLower = true ∨ c.isDigit = true ∨ c = '-' ∨ c = '_' ∨ c = '.') ∧
      (∀ c ∈ (packageName name).head?, c ≠ '.' ∧ c ≠ '_' ∧ c ≠ '-') ∧
      packageName (packageName name) = packageName name ∧
      ∃ description, (files name).lookup "package.json".toList = some description ∧
        read? description =
          some (.object (("name", .string (packageName name)) :: otherMembers)) := by
  have hne := packageName_ne_nil name
  have hchars := packageName_chars name
  have hhead := packageName_head name
  refine ⟨hne, hchars, ?_, packageName_eq hne hchars hhead, ?_⟩
  · intro c hc
    have hmark : ¬isPackageMark c = true := by simp [hhead c hc]
    rwa [isPackageMark_iff, not_or, not_or] at hmark
  · exact ⟨packageDescription (packageName name), rfl, read?_packageDescription hchars⟩

example : packageName "._İzmir & \u212Aars-2" = "i-zmir---kars-2".toList := by decide +kernel

end Pagewright.Scaffold
