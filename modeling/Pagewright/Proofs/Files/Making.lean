import Pagewright.Proofs.Files.Tree

namespace Pagewright.FileTree

open Pagewright.Path (Along names step)

variable {t t' : FileTree} {place q : Location} {path : Text}

def IsDirectory (t : FileTree) (place : Location) : Prop :=
  t.node? place = some .directory

/-- There is a directory, or nothing, and one can be made. -/
def Makeable (t : FileTree) (place : Location) : Prop :=
  t.IsDirectory place ∨ t.node? place = none ∧ ∃ inner, t.inside place = .ok inner

def start (t : FileTree) (path : Text) : Location :=
  if Path.isAbsolute path then [] else t.home

theorem isDirectory_start (t : FileTree) (path : Text) : t.IsDirectory (t.start path) := by
  have hhome : (t.start path).isPrefixOf t.home := by
    unfold start
    split <;> simp
  rw [IsDirectory, node?, if_pos hhome]

theorem start_eq (h : t'.home = t.home) (path : Text) : t'.start path = t.start path := by
  rw [start, h, start]

theorem start_trim (t : FileTree) (path : Text) : t.start (Path.trim path) = t.start path := by
  rw [start, Path.isAbsolute_trim, start]

theorem locate_of_ne_nil (h : path ≠ []) :
    t.locate path = (names path).foldlM t.follow (t.start path) := by
  rw [locate, if_neg (by simpa using h), start]

theorem foldlM_of_along {names : List Text} (h : Along t.IsDirectory place names) :
    names.foldlM t.follow place = .ok (names.foldl step place) := by
  induction names generalizing place with
  | nil => rfl
  | cons name names ih =>
    rw [List.foldlM_cons, follow_eq_ok_iff.mpr ⟨h.1, rfl⟩]
    exact ih h.2

theorem along_of_foldlM {names : List Text} (h : names.foldlM t.follow place = .ok q)
    (hq : t.IsDirectory q) : Along t.IsDirectory place names := by
  induction names generalizing place with
  | nil =>
    obtain rfl := Except.ok.inj h
    exact hq
  | cons name names ih =>
    rw [List.foldlM_cons, bind_eq_ok_iff] at h
    obtain ⟨next, hnext, hrest⟩ := h
    obtain ⟨hdir, rfl⟩ := follow_eq_ok_iff.mp hnext
    exact ⟨hdir, ih hrest⟩

/-- A path leads to a directory when everything on its way is one. -/
theorem leadsTo_iff : t.LeadsTo path q ↔
    path ≠ [] ∧ Along t.IsDirectory (t.start path) (names path) ∧
      Path.target t.home path = q := by
  constructor
  · rintro ⟨hlocate, hdir⟩
    obtain ⟨hne, hwalk⟩ := locate_eq_ok_iff.mp hlocate
    exact ⟨hne, along_of_foldlM hwalk hdir, locate_eq hlocate⟩
  · rintro ⟨hne, hway, rfl⟩
    exact ⟨locate_eq_ok_iff.mpr ⟨hne, foldlM_of_along hway⟩, hway.last⟩

/-- Where only directories are missing, a path that leads nowhere is not found. -/
theorem foldlM_notFound {names : List Text} {fault : OsFault}
    (hway : Along t.Makeable place names) (h : names.foldlM t.follow place = .error fault) :
    fault = .notFound := by
  induction names generalizing place with
  | nil => cases h
  | cons name names ih =>
    rw [List.foldlM_cons] at h
    rcases hway.1 with hdir | ⟨hnone, -⟩
    · rw [follow_eq_ok_iff.mpr ⟨hdir, rfl⟩] at h
      exact ih hway.2 h
    · rw [follow, hnone] at h
      exact (Except.error.inj h).symm

structure Grows (t t' : FileTree) : Prop where
  home : t'.home = t.home
  node : ∀ q, t'.node? q = t.node? q ∨ t'.IsDirectory q

theorem Grows.refl (t : FileTree) : Grows t t := ⟨rfl, fun _ => .inl rfl⟩

theorem Grows.trans {t'' : FileTree} (h : Grows t t') (h' : Grows t' t'') : Grows t t'' := by
  refine ⟨h'.home.trans h.home, fun q => ?_⟩
  rcases h'.node q with hq | hq
  · rw [IsDirectory, hq]
    exact h.node q
  · exact .inr hq

theorem Grows.isDirectory (h : Grows t t') (hq : t.IsDirectory q) : t'.IsDirectory q :=
  (h.node q).elim (fun hsame => hsame.trans hq) id

theorem Grows.makeable (h : Grows t t') (hq : t.Makeable q) : t'.Makeable q := by
  rcases h.node q with hsame | hdir
  · rw [Makeable, IsDirectory, hsame, inside_eq h.home]
    exact hq
  · exact .inl hdir

/-- A directory that was made is a directory, and so is every place on its way. -/
theorem makeDir_ok (h : t.makeDir path = .ok t') :
    Grows t t' ∧ Along t'.IsDirectory (t.start path) (names path) := by
  obtain ⟨place, inner, hlocate, -, hi, rfl⟩ := makeDir_eq_ok_iff.mp h
  have hgrows : Grows t (t.set inner .directory) := by
    refine ⟨rfl, fun q => ?_⟩
    rw [IsDirectory, node?_set hi]
    split
    · exact .inr rfl
    · exact .inl rfl
  refine ⟨hgrows, ?_⟩
  have hleads : (t.set inner .directory).LeadsTo (Path.trim path) place :=
    ⟨locate_mono hgrows.home (fun _ => hgrows.isDirectory) hlocate, by simp [node?_set hi]⟩
  obtain ⟨-, hway, -⟩ := leadsTo_iff.mp hleads
  rw [start_trim, Path.along_trim] at hway
  exact hway

/-- A directory that cannot be made is there, or one around it is missing. -/
theorem makeDir_error {fault : OsFault} (hway : Along t.Makeable (t.start path) (names path))
    (hne : path ≠ []) (h : t.makeDir path = .error fault) :
    fault = .notFound ∧ (∀ place, t.locate (Path.trim path) ≠ .ok place) ∨
      fault = .alreadyExists ∧ Along t.IsDirectory (t.start path) (names path) := by
  have htrimmed := (Path.along_trim _ _ _).mpr hway
  have hlocate := locate_of_ne_nil (t := t) (Path.trim_ne_nil hne)
  rw [start_trim] at hlocate
  change (t.locate (Path.trim path) >>= _) = _ at h
  rw [hlocate] at h ⊢
  cases hwalk : (names (Path.trim path)).foldlM t.follow (t.start path) with
  | error cause =>
    left
    rw [hwalk] at h
    obtain rfl := Except.error.inj h
    exact ⟨foldlM_notFound htrimmed hwalk, fun place hplace => by cases hplace⟩
  | ok place =>
    right
    have hplace := htrimmed.last
    rw [foldlM_follow hwalk] at hplace
    rw [hwalk] at h
    simp only [bind, Except.bind] at h
    rcases hplace with hdir | ⟨hnone, inner, hi⟩
    · rw [hdir] at h
      refine ⟨(Except.error.inj h).symm, ?_⟩
      rw [← Path.along_trim]
      exact along_of_foldlM hwalk hdir
    · rw [hnone, hi] at h
      cases h

theorem isDirectory_of_along (hne : path ≠ [])
    (hway : Along t.IsDirectory (t.start path) (names path)) : t.isDirectory path := by
  have hleads : t.LeadsTo path (Path.target t.home path) := leadsTo_iff.mpr ⟨hne, hway, rfl⟩
  rw [isDirectory, nodeAt_eq_ok_iff.mpr ⟨_, hleads⟩]

/-- A directory is made once those around it are. -/
theorem makeNested_cons {around : List Text} {t₁ : FileTree} (hne : path ≠ [])
    (hway : Along t.Makeable (t.start path) (names path))
    (hmade : t.makeNested around = (.ok (), t₁)) (hgrows : Grows t t₁)
    (hthere : t₁.locate (Path.trim path) = .ok place) :
    ∃ t', t.makeNested (path :: around) = (.ok (), t') ∧ Grows t t' ∧
      Along t'.IsDirectory (t.start path) (names path) := by
  rw [makeNested]
  cases hfirst : t.makeDir path with
  | ok t' => exact ⟨t', rfl, makeDir_ok hfirst⟩
  | error fault =>
    rcases makeDir_error hway hne hfirst with ⟨rfl, -⟩ | ⟨rfl, hdirs⟩
    · have hstart := start_eq hgrows.home path
      have hway₁ : Along t₁.Makeable (t₁.start path) (names path) :=
        hstart ▸ hway.mono fun _ => hgrows.makeable
      rw [hmade]
      dsimp only
      cases hsecond : t₁.makeDir path with
      | ok t' =>
        obtain ⟨hmore, hdirs⟩ := makeDir_ok hsecond
        exact ⟨t', rfl, hgrows.trans hmore, hstart ▸ hdirs⟩
      | error fault =>
        rcases makeDir_error hway₁ hne hsecond with ⟨-, hnowhere⟩ | ⟨-, hdirs⟩
        · exact absurd hthere (hnowhere place)
        · dsimp only
          rw [if_pos (isDirectory_of_along hne hdirs)]
          exact ⟨t₁, rfl, hgrows, hstart ▸ hdirs⟩
    · dsimp only
      rw [if_pos (isDirectory_of_along hne hdirs)]
      exact ⟨t, rfl, .refl t, hdirs⟩

/-- A directory is made, with those around it that are missing. -/
theorem makeNested_ok {fuel : Nat} (hfuel : path.length ≤ fuel)
    (hway : Along t.Makeable (t.start path) (names path)) :
    ∃ t', t.makeNested (Path.ancestorsUpTo fuel path) = (.ok (), t') ∧ Grows t t' ∧
      Along t'.IsDirectory (t.start path) (names path) := by
  have hempty : Along t.IsDirectory (t.start []) (names []) :=
    ⟨isDirectory_start t [], isDirectory_start t []⟩
  induction fuel generalizing path with
  | zero =>
    obtain rfl := List.length_eq_zero_iff.mp (Nat.le_zero.mp hfuel)
    exact ⟨t, rfl, .refl t, hempty⟩
  | succ fuel ih =>
    by_cases hne : path = []
    · subst hne
      exact ⟨t, rfl, .refl t, hempty⟩
    have htrim := Path.trim_ne_nil hne
    rw [Path.ancestorsUpTo, if_neg (by simpa using hne)]
    cases hup : Path.parent? path with
    | none =>
      have hdirs := Path.along_of_parent_none hup (isDirectory_start t path)
      rw [← Path.along_trim] at hdirs
      have hthere := (locate_of_ne_nil htrim).trans (start_trim t path ▸ foldlM_of_along hdirs)
      exact makeNested_cons hne hway rfl (.refl t) hthere
    | some up =>
      obtain ⟨around, last, hnames, halong, habsolute, hlength⟩ := Path.parent?_eq_some hup
      have hstart : t.start up = t.start path := by rw [start, habsolute, start]
      have hwayUp : Along t.Makeable (t.start up) (names up) := by
        rw [← Path.along_trim, hnames, Path.along_append, halong] at hway
        exact hstart ▸ hway.1
      obtain ⟨t₁, hmade, hgrows, hdirs⟩ := ih (by omega) hwayUp
      have hthere : t₁.locate (Path.trim path) =
          .ok (step (around.foldl step (t.start path)) last) := by
        rw [← halong, hstart] at hdirs
        rw [locate_of_ne_nil htrim, start_trim, start_eq hgrows.home, hnames, List.foldlM_append]
        refine bind_eq_ok_iff.mpr ⟨_, foldlM_of_along hdirs, ?_⟩
        rw [List.foldlM_cons]
        exact bind_eq_ok_iff.mpr ⟨_, follow_eq_ok_iff.mpr ⟨hdirs.last, rfl⟩, rfl⟩
      exact makeNested_cons hne hway hmade hgrows hthere

/-- Directories are made along a path where nothing else is on its way. -/
theorem makeDirs_ok (hway : Along t.Makeable (t.start path) (names path)) :
    ∃ t', t.makeDirs path = (.ok (), t') ∧ Grows t t' ∧
      Along t'.IsDirectory (t.start path) (names path) :=
  makeNested_ok Nat.le.refl hway

end Pagewright.FileTree
