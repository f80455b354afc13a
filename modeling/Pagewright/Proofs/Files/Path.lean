import Mathlib.Data.List.TakeWhile
import Mathlib.Tactic.Common
import Pagewright.Files.Tree
import Pagewright.Proofs.Text.Pieces

namespace Pagewright.Path

def step (place : Location) (name : Text) : Location :=
  if name.isEmpty || name = ['.'] then place
  else if name = ['.', '.'] then place.dropLast
  else place ++ [name]

def target (home : Location) (path : Text) : Location :=
  (names path).foldl step (if isAbsolute path then [] else home)

/-- The names of a path below a directory follow the names of the directory, less the empty
name after a slash at its end. -/
theorem names_join (directory : Text) {path : Text} (hrel : isAbsolute path = false) :
    names (join directory path) = names directory ++ names path ∨
      ∃ around, names directory = around ++ [[]] ∧
        names (join directory path) = around ++ names path := by
  rw [join, if_neg (by simp [hrel])]
  split
  · rename_i hend
    right
    rcases List.eq_nil_or_concat directory with rfl | ⟨around, c, rfl⟩
    · exact ⟨[], rfl, rfl⟩
    · have hc : c = '/' := by simpa using hend
      subst hc
      rw [List.concat_eq_append]
      refine ⟨names around, Text.pieces_append around [], ?_⟩
      rw [List.append_assoc]
      exact Text.pieces_append around path
  · exact .inl (Text.pieces_append directory path)

theorem isAbsolute_join {directory path : Text} (hrel : isAbsolute path = false) :
    isAbsolute (join directory path) = isAbsolute directory := by
  rw [join, if_neg (by simp [hrel])]
  cases directory with
  | nil => exact hrel
  | cons c cs =>
    split <;> rfl

/-- A path below a directory leads on from where the directory is. -/
theorem target_join {home : Location} {directory path : Text} (hrel : isAbsolute path = false) :
    target home (join directory path) = (names path).foldl step (target home directory) := by
  rw [target, target, isAbsolute_join hrel]
  rcases names_join directory hrel with h | ⟨around, hd, h⟩
  · rw [h, List.foldl_append]
  · rw [h, hd, List.foldl_append, List.foldl_append]
    rfl

theorem join_ne_nil {directory path : Text} (h : directory ≠ [] ∨ path ≠ [])
    (hrel : isAbsolute path = false) : join directory path ≠ [] := by
  rw [join, if_neg (by simp [hrel])]
  split
  · simpa [or_iff_not_imp_left] using h
  · simp

/-- A text that names one entry of a directory. -/
def IsName (name : Text) : Prop :=
  name ≠ [] ∧ name ≠ ['.'] ∧ name ≠ ['.', '.'] ∧ '/' ∉ name

instance (name : Text) : Decidable (IsName name) :=
  inferInstanceAs (Decidable (_ ∧ _ ∧ _ ∧ _))

namespace IsName

variable {name : Text} (h : IsName name)

include h

theorem isAbsolute : isAbsolute name = false := by
  cases name with
  | nil => rfl
  | cons c cs =>
    have hc : c ≠ '/' := fun he => h.2.2.2 (by simp [he])
    simpa [Path.isAbsolute] using hc

theorem names : names name = [name] :=
  Text.pieces_one h.2.2.2

theorem step (place : Location) : step place name = place ++ [name] := by
  obtain ⟨hnil, hdot, hdots, -⟩ := h
  simp [Path.step, hnil, hdot, hdots]

theorem target_join (home : Location) (directory : Text) :
    target home (join directory name) = target home directory ++ [name] := by
  rw [Path.target_join h.isAbsolute, h.names, List.foldl_cons, List.foldl_nil, h.step]

end IsName

/-- Names of entries lead downwards. -/
theorem foldl_step {names : List Text} (h : ∀ name ∈ names, IsName name) (place : Location) :
    names.foldl step place = place ++ names := by
  induction names generalizing place with
  | nil => simp
  | cons name names ih =>
    rw [List.foldl_cons, (h name List.mem_cons_self).step,
      ih fun other ho => h other (List.mem_cons_of_mem name ho)]
    simp

/-- Every place on a way has a property, the first and the last with it. -/
def Along (P : Location → Prop) : Location → List Text → Prop
  | place, [] => P place
  | place, name :: names => P place ∧ Along P (step place name) names

section

variable {P Q : Location → Prop} {place : Location} {names : List Text}

theorem Along.first (h : Along P place names) : P place := by
  cases names with
  | nil => exact h
  | cons name names => exact h.1

theorem Along.last (h : Along P place names) : P (names.foldl step place) := by
  induction names generalizing place with
  | nil => exact h
  | cons name names ih => exact ih h.2

theorem Along.mono (hpq : ∀ q, P q → Q q) (h : Along P place names) : Along Q place names := by
  induction names generalizing place with
  | nil => exact hpq place h
  | cons name names ih => exact ⟨hpq place h.1, ih h.2⟩

theorem along_append {more : List Text} :
    Along P place (names ++ more) ↔
      Along P place names ∧ Along P (names.foldl step place) more := by
  induction names generalizing place with
  | nil => exact ⟨fun h => ⟨h.first, h⟩, And.right⟩
  | cons name names ih => simp only [List.cons_append, Along, List.foldl_cons, ih, and_assoc]

/-- The name that a slash or a `/.` at the end of a path adds leads nowhere else. -/
theorem along_still {name : Text} (h : name = [] ∨ name = ['.']) :
    Along P place (names ++ [name]) ↔ Along P place names := by
  have hstep : ∀ q, step q name = q := by
    intro q
    rcases h with rfl | rfl <;> rfl
  rw [along_append]
  exact ⟨And.left, fun h => ⟨h, h.last, (hstep _).symm ▸ h.last⟩⟩

end

/-- The way to an entry of a directory is the way to the directory, and the entry. -/
theorem along_join {P : Location → Prop} {place : Location} {directory name : Text}
    (hn : IsName name) :
    Along P place (names (join directory name)) ↔
      Along P place (names directory) ∧ P ((names directory).foldl step place ++ [name]) := by
  have hentry : ∀ around, Along P place (around ++ [name]) ↔
      Along P place around ∧ P (around.foldl step place ++ [name]) := by
    intro around
    rw [along_append, Along, Along, hn.step]
    exact and_congr_right fun h => and_iff_right h.last
  rcases names_join directory hn.isAbsolute with h | ⟨around, hd, h⟩
  · rw [h, hn.names, hentry]
  · rw [h, hn.names, hentry, hd, along_still (.inl rfl), List.foldl_append]
    rfl

/-- A path without the slashes and the `/.` that end it. -/
def trim (path : Text) : Text :=
  (trimBackward path.reverse).reverse

/-- A path, written backwards, and what is left of it. The cut makes no difference to the way. -/
structure Cut (b left : Text) : Prop where
  suffix : left <:+ b
  nonempty : b ≠ [] → left ≠ []
  /-- Only the root of all files still ends with a slash. -/
  slash : ∀ rest, left = '/' :: rest → rest = []
  along : ∀ P place, Along P place (names left.reverse) ↔ Along P place (names b.reverse)

theorem Cut.more {b left : Text} (added : Text) (h : Cut b left) (hne : b ≠ [])
    (hadded : ∀ P place,
      Along P place (names b.reverse) ↔ Along P place (names (added ++ b).reverse)) :
    Cut (added ++ b) left where
  suffix := h.suffix.trans (List.suffix_append added b)
  nonempty _ := h.nonempty hne
  slash := h.slash
  along P place := (h.along P place).trans (hadded P place)

/-- Only slashes and single dots go at the end of a path. -/
theorem trimBackward_cut (b : Text) : Cut b (trimBackward b) := by
  induction b using trimBackward.induct with
  | case1 rest hempty =>
    obtain rfl : rest = [] := List.isEmpty_iff.mp hempty
    exact ⟨List.suffix_rfl, fun h => h, fun _ h => (List.cons.inj h).2.symm, fun _ _ => .rfl⟩
  | case2 rest hne ih =>
    rw [trimBackward, if_neg hne]
    refine ih.more ['/'] (mt List.isEmpty_iff.mpr hne) fun P place => ?_
    rw [List.singleton_append, List.reverse_cons, names, names, Text.pieces_append]
    exact (along_still (.inl rfl)).symm
  | case3 rest hempty =>
    obtain rfl : rest = [] := List.isEmpty_iff.mp hempty
    exact ⟨List.suffix_cons _ _, fun _ => List.cons_ne_nil _ _,
      fun _ h => (List.cons.inj h).2.symm, fun _ _ => .rfl⟩
  | case4 rest hne ih =>
    rw [trimBackward, if_neg hne]
    refine ih.more ['.', '/'] (mt List.isEmpty_iff.mpr hne) fun P place => ?_
    have hpath : (['.', '/'] ++ rest).reverse = rest.reverse ++ '/' :: ['.'] := by simp
    rw [hpath, names, names, Text.pieces_append]
    exact (along_still (.inr rfl)).symm
  | case5 b hslash hdot =>
    have hkept : trimBackward b = b := by rw [trimBackward] <;> assumption
    rw [hkept]
    exact ⟨List.suffix_rfl, fun h => h, fun rest h => (hslash rest h).elim, fun _ _ => .rfl⟩

theorem trim_begins (path : Text) : trim path <+: path := by
  have h := List.reverse_prefix.mpr (trimBackward_cut path.reverse).suffix
  rwa [List.reverse_reverse] at h

theorem trim_ne_nil {path : Text} (h : path ≠ []) : trim path ≠ [] := by
  have hleft := (trimBackward_cut path.reverse).nonempty (by simpa using h)
  simpa [trim] using hleft

theorem isAbsolute_trim (path : Text) : isAbsolute (trim path) = isAbsolute path := by
  by_cases hne : path = []
  · rw [hne]
    rfl
  · obtain ⟨c, cs, hcons⟩ := List.exists_cons_of_ne_nil (trim_ne_nil hne)
    obtain ⟨cut, hcut⟩ := trim_begins path
    have hhead : isAbsolute (trim path ++ cut) = isAbsolute (trim path) := by
      rw [hcons]
      rfl
    rw [← hhead, hcut]

theorem along_trim (P : Location → Prop) (place : Location) (path : Text) :
    Along P place (names (trim path)) ↔ Along P place (names path) := by
  have h := (trimBackward_cut path.reverse).along P place
  rwa [List.reverse_reverse] at h

/-- A path with nothing around it leads nowhere else. -/
theorem along_of_parent_none {P : Location → Prop} {place : Location} {path : Text}
    (h : parent? path = none) (hp : P place) : Along P place (names path) := by
  rw [← along_trim, trim]
  unfold parent? at h
  split at h
  · rename_i hnil
    rw [hnil]
    exact ⟨hp, hp⟩
  · rename_i hroot
    rw [hroot]
    exact ⟨hp, hp, hp⟩
  · cases h

/-- A path ends with one name, and what is before the name is the path around it. -/
theorem parent?_split {path up : Text} (h : parent? path = some up) :
    ∃ last, last ≠ [] ∧ '/' ∉ last ∧
      (trim path = last ∧ up = [] ∨
        ∃ front, trim path = front ++ '/' :: last ∧ up = trim (front ++ ['/'])) := by
  have hslash := (trimBackward_cut path.reverse).slash
  rw [trim]
  unfold parent? at h
  split at h
  · cases h
  · cases h
  · rename_i b hnil hroot
    obtain rfl := Option.some.inj h
    have hsplit := List.takeWhile_append_dropWhile (p := fun c => decide (c ≠ '/'))
      (l := trimBackward path.reverse)
    have hlast : ∀ c ∈ (trimBackward path.reverse).takeWhile (· ≠ '/'), c ≠ '/' :=
      fun c hc => by simpa using List.mem_takeWhile_imp hc
    have hbefore : ∀ c rest, (trimBackward path.reverse).dropWhile (· ≠ '/') = c :: rest →
        c = '/' := by
      intro c rest hd
      have hc := List.head?_dropWhile_not (fun c => decide (c ≠ '/')) (trimBackward path.reverse)
      rw [hd] at hc
      simpa using hc
    generalize (trimBackward path.reverse).takeWhile (· ≠ '/') = last at hsplit hlast
    generalize (trimBackward path.reverse).dropWhile (· ≠ '/') = before at hsplit hbefore
    generalize trimBackward path.reverse = left at *
    subst hsplit
    refine ⟨last.reverse, ?_, fun hc => hlast '/' (List.mem_reverse.mp hc) rfl, ?_⟩
    · intro hempty
      obtain rfl := List.reverse_eq_nil_iff.mp hempty
      cases before with
      | nil => exact hnil rfl
      | cons c rest =>
        obtain rfl := hbefore c rest rfl
        obtain rfl := hslash rest rfl
        exact hroot rfl
    · cases before with
      | nil => exact .inl ⟨by simp, rfl⟩
      | cons c rest =>
        obtain rfl := hbefore c rest rfl
        exact .inr ⟨rest.reverse, by simp, by simp [trim]⟩

/-- The way of a path is the way of the path around it, and one name more. -/
theorem parent?_eq_some {path up : Text} (h : parent? path = some up) :
    ∃ around last, names (trim path) = around ++ [last] ∧
      (∀ P place, Along P place around ↔ Along P place (names up)) ∧
      isAbsolute up = isAbsolute path ∧ up.length < path.length := by
  obtain ⟨last, hne, hslash, hsplit⟩ := parent?_split h
  have hlength := (trim_begins path).length_le
  have hpos := List.length_pos_iff.mpr hne
  rw [← isAbsolute_trim path]
  rcases hsplit with ⟨htrim, rfl⟩ | ⟨front, htrim, rfl⟩
  · rw [htrim] at hlength ⊢
    refine ⟨[], last, Text.pieces_one hslash, fun P place => ?_, ?_, ?_⟩
    · exact ⟨fun hp => ⟨hp, hp⟩, And.left⟩
    · obtain ⟨c, cs, rfl⟩ := List.exists_cons_of_ne_nil hne
      have hc : c ≠ '/' := fun he => hslash (by simp [he])
      simp [isAbsolute, hc]
    · exact Nat.lt_of_lt_of_le hpos hlength
  · rw [htrim] at hlength ⊢
    refine ⟨names front, last, ?_, fun P place => ?_, ?_, ?_⟩
    · rw [names, Text.pieces_append, Text.pieces_one hslash, names]
    · rw [along_trim, names, names, Text.pieces_append]
      exact (along_still (.inl rfl)).symm
    · rw [isAbsolute_trim]
      cases front <;> rfl
    · have hup := (trim_begins (front ++ ['/'])).length_le
      simp only [List.length_append, List.length_cons, List.length_nil] at hlength hup
      omega

end Pagewright.Path
