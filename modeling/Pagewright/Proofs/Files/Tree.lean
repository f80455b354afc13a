import Mathlib.Data.List.Basic
import Pagewright.Proofs.Files.Path
import Pagewright.Proofs.Result

namespace Pagewright

namespace FileTree

variable {t t' : FileTree} {place inner q : Location} {path : Text} {node : Node}

def file? (t : FileTree) (place : Location) : Option ByteArray :=
  match t.node? place with
  | some (.file content) => some content
  | _ => none

def text? (t : FileTree) (place : Location) : Option Text :=
  (t.file? place).bind Text.decode?

/-- Nothing stands at a place or below it. -/
def Lacks (t : FileTree) (place : Location) : Prop :=
  ∀ q, place <+: q → t.node? q = none

/-- A path leads to a directory. -/
def LeadsTo (t : FileTree) (path : Text) (place : Location) : Prop :=
  t.locate path = .ok place ∧ t.node? place = some .directory

theorem follow_eq_ok_iff {name : Text} :
    t.follow place name = .ok q ↔ t.node? place = some .directory ∧ Path.step place name = q := by
  unfold follow Path.step
  split
  · rename_i h
    simp [h]
  · rename_i h
    simp [h]
  · rename_i h
    split
    · simp [h]
    · split <;> simp [h]

theorem foldlM_follow {names : List Text} (h : names.foldlM t.follow place = .ok q) :
    names.foldl Path.step place = q := by
  induction names generalizing place with
  | nil => exact Except.ok.inj h
  | cons name names ih =>
    rw [List.foldlM_cons, bind_eq_ok_iff] at h
    obtain ⟨next, hnext, hrest⟩ := h
    rw [List.foldl_cons, (follow_eq_ok_iff.mp hnext).2]
    exact ih hrest

/-- A path that leads anywhere leads to its target. -/
theorem locate_eq (h : t.locate path = .ok place) : Path.target t.home path = place := by
  rw [locate] at h
  split at h
  · cases h
  · exact foldlM_follow h

/-- Where a path leads stays so when directories are added. -/
theorem locate_mono (hhome : t'.home = t.home)
    (hdirs : ∀ q, t.node? q = some .directory → t'.node? q = some .directory)
    (h : t.locate path = .ok place) : t'.locate path = .ok place := by
  have hwalk : ∀ (names : List Text) start, names.foldlM t.follow start = .ok place →
      names.foldlM t'.follow start = .ok place := by
    intro names
    induction names with
    | nil => exact fun _ h => h
    | cons name names ih =>
      intro start h
      rw [List.foldlM_cons, bind_eq_ok_iff] at h ⊢
      obtain ⟨next, hnext, hrest⟩ := h
      obtain ⟨hdir, hstep⟩ := follow_eq_ok_iff.mp hnext
      exact ⟨next, follow_eq_ok_iff.mpr ⟨hdirs _ hdir, hstep⟩, ih next hrest⟩
  rw [locate] at h ⊢
  split at h
  · cases h
  · rw [hhome]
    rename_i hne
    rw [if_neg hne]
    exact hwalk _ _ h

theorem locate_eq_ok_iff :
    t.locate path = .ok place ↔ path ≠ [] ∧
      (Path.names path).foldlM t.follow (if Path.isAbsolute path then [] else t.home) =
        .ok place := by
  cases path <;> simp [locate]

theorem LeadsTo.ne_nil (h : t.LeadsTo path place) : path ≠ [] :=
  (locate_eq_ok_iff.mp h.1).1

/-- A path below a directory is followed from where the path of the directory leads. -/
theorem locate_join {directory : Text} (hd : directory ≠ [])
    (hrel : Path.isAbsolute path = false) :
    t.locate (Path.join directory path) = .ok q ↔
      ∃ r, t.locate directory = .ok r ∧ (Path.names path).foldlM t.follow r = .ok q := by
  have hj := Path.join_ne_nil (.inl hd) hrel
  simp only [locate_eq_ok_iff, hj, hd, ne_eq, not_false_eq_true, true_and,
    Path.isAbsolute_join hrel]
  rcases Path.names_join directory hrel with h | ⟨around, hnames, h⟩
  · rw [h, List.foldlM_append, bind_eq_ok_iff]
  · rw [h, hnames, List.foldlM_append, List.foldlM_append, bind_eq_ok_iff]
    constructor
    · rintro ⟨r, hr, hq⟩
      refine ⟨r, bind_eq_ok_iff.mpr ⟨r, hr, ?_⟩, hq⟩
      have hne : Path.names path ≠ [] := Text.pieces_ne_nil path
      obtain ⟨name, names, hcons⟩ := List.exists_cons_of_ne_nil hne
      rw [hcons, List.foldlM_cons, bind_eq_ok_iff] at hq
      obtain ⟨next, hnext, -⟩ := hq
      rw [List.foldlM_cons, bind_eq_ok_iff]
      exact ⟨r, follow_eq_ok_iff.mpr ⟨(follow_eq_ok_iff.mp hnext).1, rfl⟩, rfl⟩
    · rintro ⟨r, hr, hq⟩
      obtain ⟨s, hs, hr⟩ := bind_eq_ok_iff.mp hr
      rw [List.foldlM_cons, bind_eq_ok_iff] at hr
      obtain ⟨next, hnext, hr⟩ := hr
      obtain rfl : s = next := (follow_eq_ok_iff.mp hnext).2
      obtain rfl : s = r := Except.ok.inj hr
      exact ⟨s, hs, hq⟩

/-- A name behind a directory leads to its entry of that name. -/
theorem locate_join_name {directory name : Text} (hd : directory ≠ []) (hn : Path.IsName name) :
    t.locate (Path.join directory name) = .ok q ↔
      ∃ r, t.LeadsTo directory r ∧ q = r ++ [name] := by
  rw [locate_join hd hn.isAbsolute]
  constructor
  · rintro ⟨r, hr, hq⟩
    rw [hn.names, List.foldlM_cons, bind_eq_ok_iff] at hq
    obtain ⟨next, hnext, hq⟩ := hq
    obtain rfl : next = q := Except.ok.inj hq
    obtain ⟨hdir, hstep⟩ := follow_eq_ok_iff.mp hnext
    exact ⟨r, ⟨hr, hdir⟩, by rw [← hstep, hn.step]⟩
  · rintro ⟨r, ⟨hr, hdir⟩, rfl⟩
    refine ⟨r, hr, ?_⟩
    rw [hn.names, List.foldlM_cons, bind_eq_ok_iff]
    exact ⟨r ++ [name], follow_eq_ok_iff.mpr ⟨hdir, hn.step r⟩, rfl⟩

theorem nodeAt_eq_ok_iff :
    t.nodeAt path = .ok node ↔ ∃ q, t.locate path = .ok q ∧ t.node? q = some node := by
  rw [nodeAt, bind_eq_ok_iff]
  refine exists_congr fun q => and_congr_right fun _ => ?_
  cases t.node? q <;> simp

theorem read_eq_ok_iff {content : ByteArray} :
    t.read path = .ok content ↔ ∃ q, t.locate path = .ok q ∧ t.file? q = some content := by
  rw [read, bind_eq_ok_iff]
  simp only [nodeAt_eq_ok_iff]
  constructor
  · rintro ⟨node, ⟨q, hq, hnode⟩, h⟩
    cases node with
    | file c => exact ⟨q, hq, by simpa [file?, hnode] using h⟩
    | directory => cases h
  · rintro ⟨q, hq, hfile⟩
    cases hnode : t.node? q with
    | none => simp [file?, hnode] at hfile
    | some node =>
      cases node with
      | file c => exact ⟨_, ⟨q, hq, hnode⟩, by simpa [file?, hnode] using hfile⟩
      | directory => simp [file?, hnode] at hfile

theorem readText_eq_ok_iff {text : Text} :
    t.readText path = .ok text ↔ ∃ q, t.locate path = .ok q ∧ t.text? q = some text := by
  rw [readText, bind_eq_ok_iff]
  simp only [read_eq_ok_iff, text?, Option.bind_eq_some_iff]
  constructor
  · rintro ⟨content, ⟨q, hq, hfile⟩, h⟩
    refine ⟨q, hq, content, hfile, ?_⟩
    cases hd : Text.decode? content <;> simp_all
  · rintro ⟨q, hq, content, hfile, hd⟩
    exact ⟨content, ⟨q, hq, hfile⟩, by simp [hd]⟩

theorem locate_entry {directory name : Text} (hd : t.LeadsTo directory place)
    (hn : Path.IsName name) : t.locate (Path.join directory name) = .ok (place ++ [name]) :=
  (locate_join_name hd.ne_nil hn).mpr ⟨place, hd, rfl⟩

theorem readText_entry_ok_iff {directory name text : Text} (hd : t.LeadsTo directory place)
    (hn : Path.IsName name) :
    t.readText (Path.join directory name) = .ok text ↔ t.text? (place ++ [name]) = some text := by
  rw [readText_eq_ok_iff, locate_entry hd hn]
  simp

theorem readText_entry_notFound_iff {directory name : Text} (hd : t.LeadsTo directory place)
    (hn : Path.IsName name) :
    t.readText (Path.join directory name) = .error .notFound ↔
      t.node? (place ++ [name]) = none := by
  simp only [readText, read, nodeAt, locate_entry hd hn, bind, Except.bind]
  cases t.node? (place ++ [name]) with
  | none => simp
  | some node =>
    cases node with
    | directory => simp
    | file content =>
      dsimp only
      cases Text.decode? content <;> simp

/-- A place may be changed if it is strictly below the top directory. -/
theorem inside_eq_ok_iff :
    t.inside place = .ok inner ↔ t.home ++ inner = place ∧ inner ≠ [] := by
  unfold inside
  split
  · rename_i name rest h
    rw [List.append_eq_of_isPrefixOf?_eq_some h |>.symm]
    simp only [Except.ok.injEq, List.append_cancel_left_eq, ne_eq]
    constructor
    · rintro rfl
      exact ⟨rfl, List.cons_ne_nil _ _⟩
    · rintro ⟨rfl, -⟩
      rfl
  · rename_i hother
    constructor
    · intro h
      cases h
    · rintro ⟨rfl, hne⟩
      obtain ⟨name, rest, rfl⟩ := List.exists_cons_of_ne_nil hne
      exact absurd (List.isPrefixOf?_eq_some_iff_append_eq.mpr rfl) (hother name rest)

theorem inside_eq (h : t'.home = t.home) (place : Location) : t'.inside place = t.inside place := by
  rw [inside, h, inside]

theorem node?_home_append (hne : inner ≠ []) : t.node? (t.home ++ inner) = t.find? inner := by
  have hnot : (t.home ++ inner).isPrefixOf t.home = false := by
    rw [Bool.eq_false_iff]
    intro h
    have hlen := (List.isPrefixOf_iff_prefix.mp h).length_le
    have hpos := List.length_pos_of_ne_nil hne
    rw [List.length_append] at hlen
    omega
  have hsome : t.home.isPrefixOf? (t.home ++ inner) = some inner :=
    List.isPrefixOf?_eq_some_iff_append_eq.mpr rfl
  simp [node?, hnot, hsome]

/-- What an operation leaves at every place, from what it leaves at the places below the top. -/
theorem node?_ext {f : Location → Option Node → Option Node} (hhome : t'.home = t.home)
    (hout : ∀ q, (∀ x, x ≠ [] → q ≠ t.home ++ x) → f q (t.node? q) = t.node? q)
    (hin : ∀ x, x ≠ [] → t'.find? x = f (t.home ++ x) (t.find? x)) (q : Location) :
    t'.node? q = f q (t.node? q) := by
  by_cases hq : ∃ x, x ≠ [] ∧ q = t.home ++ x
  · obtain ⟨x, hne, rfl⟩ := hq
    have := node?_home_append (t := t') hne
    rw [hhome] at this
    rw [this, node?_home_append hne, hin x hne]
  · have hq : ∀ x, x ≠ [] → q ≠ t.home ++ x := fun x hne he => hq ⟨x, hne, he⟩
    rw [hout q hq, node?, node?, hhome]
    by_cases hp : q.isPrefixOf t.home
    · simp [hp]
    · cases hx : t.home.isPrefixOf? q with
      | none => simp [hp]
      | some x =>
        obtain rfl := List.append_eq_of_isPrefixOf?_eq_some hx
        have hnil : x = [] := by
          by_contra hne
          exact hq x hne rfl
        simp [hnil] at hp

theorem lookup_cons (e : Location × Node) (entries : List (Location × Node)) (q : Location) :
    (e :: entries).lookup q = if q = e.1 then some e.2 else entries.lookup q := by
  rw [List.lookup_cons]
  by_cases h : q = e.1
  · simp [h]
  · rw [if_neg h, beq_eq_false_iff_ne.mpr h]

theorem lookup_setEntry (entries : List (Location × Node)) (q : Location) :
    (setEntry inner node entries).lookup q = if q = inner then some node else entries.lookup q := by
  induction entries with
  | nil => simp [setEntry, lookup_cons]
  | cons e entries ih =>
    by_cases he : e.1 = inner
    · subst he
      by_cases h : q = e.1 <;> simp [setEntry, lookup_cons, h]
    · by_cases h : q = e.1
      · subst h
        simp [setEntry, he, lookup_cons]
      · simp [setEntry, he, lookup_cons, h, ih]

theorem lookup_filter {p : Location → Bool} (entries : List (Location × Node)) (q : Location) :
    (entries.filter fun e => p e.1).lookup q = if p q then entries.lookup q else none := by
  induction entries with
  | nil => simp
  | cons e entries ih =>
    rw [lookup_cons]
    by_cases h : q = e.1
    · subst h
      by_cases he : p e.1
      · simp [he, lookup_cons]
      · simp [he, ih]
    · by_cases he : p e.1
      · simp [he, lookup_cons, h, ih]
      · simp [he, h, ih]

theorem node?_set (h : t.inside place = .ok inner) (node : Node) (q : Location) :
    (t.set inner node).node? q = if q = place then some node else t.node? q := by
  obtain ⟨rfl, hne⟩ := inside_eq_ok_iff.mp h
  refine node?_ext (f := fun q old => if q = t.home ++ inner then some node else old)
    (show (t.set inner node).home = t.home from rfl) ?_ ?_ q
  · intro q hq
    rw [if_neg (hq inner hne)]
  · intro x _
    simpa [find?, set] using lookup_setEntry t.entries x

/-- Taking a place out takes what is below it, and nothing else. -/
theorem node?_without (h : t.inside place = .ok inner) (q : Location) :
    (t.without inner).node? q = if place <+: q then none else t.node? q := by
  obtain ⟨rfl, hne⟩ := inside_eq_ok_iff.mp h
  refine node?_ext (f := fun q old => if t.home ++ inner <+: q then none else old)
    (show (t.without inner).home = t.home from rfl) ?_ ?_ q
  · intro q hq
    rw [if_neg]
    rintro ⟨y, rfl⟩
    exact hq (inner ++ y) (by simp [hne]) (by simp)
  · intro x _
    have hx := lookup_filter (p := fun l => !inner.isPrefixOf l) t.entries x
    by_cases hp : inner <+: x
    · have hb : inner.isPrefixOf x = true := List.isPrefixOf_iff_prefix.mpr hp
      simpa [find?, without, hp, hb, List.prefix_append_right_inj] using hx
    · have hb : inner.isPrefixOf x = false := by
        simpa [Bool.eq_false_iff, List.isPrefixOf_iff_prefix] using hp
      simpa [find?, without, hp, hb, List.prefix_append_right_inj] using hx

/-- A file is written at the target of its path, where no directory may stand. -/
theorem write_eq_ok {content : ByteArray} (h : t.write path content = .ok t') :
    t.node? (Path.target t.home path) ≠ some .directory ∧
      ∃ inner, t.inside (Path.target t.home path) = .ok inner ∧
        t' = t.set inner (.file content) := by
  unfold write at h
  split at h
  · obtain ⟨_, -, h⟩ := bind_eq_ok_iff.mp h
    cases h
  · obtain ⟨place, hplace, h⟩ := bind_eq_ok_iff.mp h
    obtain rfl := locate_eq hplace
    split at h
    · cases h
    · rename_i hnode
      obtain ⟨inner, hinner, h⟩ := bind_eq_ok_iff.mp h
      exact ⟨hnode, inner, hinner, (Except.ok.inj h).symm⟩

/-- A directory is made at a place where nothing stands yet. -/
theorem makeDir_eq_ok_iff :
    t.makeDir path = .ok t' ↔
      ∃ place inner, t.locate (Path.trim path) = .ok place ∧
        t.node? place = none ∧ t.inside place = .ok inner ∧ t' = t.set inner .directory := by
  rw [makeDir, bind_eq_ok_iff]
  constructor
  · rintro ⟨place, hplace, h⟩
    split at h
    · cases h
    · rename_i hnode
      obtain ⟨inner, hinner, hset⟩ := bind_eq_ok_iff.mp h
      exact ⟨place, inner, hplace, hnode, hinner, (Except.ok.inj hset).symm⟩
  · rintro ⟨place, inner, hplace, hnode, hinner, rfl⟩
    refine ⟨place, hplace, ?_⟩
    rw [hnode]
    exact bind_eq_ok_iff.mpr ⟨inner, hinner, rfl⟩

/-- Removing succeeds at a place below the top directory that the path leads to. -/
theorem removeAll_eq_ok_iff :
    t.removeAll path = .ok t' ↔
      ∃ place inner, t.LeadsTo path place ∧ t.inside place = .ok inner ∧ t' = t.without inner := by
  rw [removeAll, bind_eq_ok_iff]
  constructor
  · rintro ⟨node, hnode, h⟩
    obtain ⟨q, hq, hnode⟩ := nodeAt_eq_ok_iff.mp hnode
    cases node with
    | file content => cases h
    | directory =>
      obtain ⟨place, hplace, h⟩ := bind_eq_ok_iff.mp h
      obtain ⟨inner, hinner, hwithout⟩ := bind_eq_ok_iff.mp h
      obtain rfl : q = place := Except.ok.inj (hq.symm.trans hplace)
      exact ⟨q, inner, ⟨hq, hnode⟩, hinner, (Except.ok.inj hwithout).symm⟩
  · rintro ⟨place, inner, ⟨hlocate, hnode⟩, hinner, rfl⟩
    refine ⟨.directory, nodeAt_eq_ok_iff.mpr ⟨place, hlocate, hnode⟩, ?_⟩
    exact bind_eq_ok_iff.mpr ⟨place, hlocate, bind_eq_ok_iff.mpr ⟨inner, hinner, rfl⟩⟩

theorem without_of_lacks (h : t.Lacks place) (hi : t.inside place = .ok inner) :
    t.without inner = t := by
  obtain ⟨rfl, hne⟩ := inside_eq_ok_iff.mp hi
  have hall : ∀ e ∈ t.entries, !inner.isPrefixOf e.1 := by
    intro e he
    rw [Bool.not_eq_true', Bool.eq_false_iff, ne_eq, List.isPrefixOf_iff_prefix]
    rintro hp
    have hnone := h (t.home ++ e.1) ((List.prefix_append_right_inj t.home).mpr hp)
    rw [node?_home_append (hp.ne_nil hne), find?, List.lookup_eq_none_iff] at hnone
    simpa using hnone e he
  rw [without, List.filter_eq_self.mpr hall]

theorem lacks_without (hi : t.inside place = .ok inner) : (t.without inner).Lacks place := by
  intro q hq
  rw [node?_without hi, if_pos hq]

/-- Two trees below the same top directory have the same file at a place, or none. -/
structure Keeps (q : Location) (t t' : FileTree) : Prop where
  home : t'.home = t.home
  file : t'.file? q = t.file? q

theorem Keeps.refl (q : Location) (t : FileTree) : Keeps q t t := ⟨rfl, rfl⟩

theorem Keeps.trans {t'' : FileTree} (h : Keeps q t t') (h' : Keeps q t' t'') : Keeps q t t'' :=
  ⟨h'.home.trans h.home, h'.file.trans h.file⟩

theorem keeps_of_node (hhome : t'.home = t.home) (hnode : t'.node? q = t.node? q) :
    Keeps q t t' :=
  ⟨hhome, by rw [file?, file?, hnode]⟩

theorem write_keeps {content : ByteArray} (h : t.write path content = .ok t')
    (hq : q ≠ Path.target t.home path) : Keeps q t t' := by
  obtain ⟨-, inner, hi, rfl⟩ := write_eq_ok h
  exact keeps_of_node rfl (by rw [node?_set hi, if_neg hq])

theorem write_file {content : ByteArray} (h : t.write path content = .ok t') :
    t'.file? (Path.target t.home path) = some content := by
  obtain ⟨-, inner, hi, rfl⟩ := write_eq_ok h
  simp [file?, node?_set hi]

/-- A directory is made where nothing was. -/
theorem makeDir_keeps (h : t.makeDir path = .ok t') : Keeps q t t' := by
  obtain ⟨place, inner, -, hnode, hi, rfl⟩ := makeDir_eq_ok_iff.mp h
  refine ⟨rfl, ?_⟩
  by_cases hq : q = place
  · subst hq
    simp [file?, node?_set hi, hnode]
  · simp [file?, node?_set hi, hq]

theorem makeNested_keeps (paths : List Text) : Keeps q t (t.makeNested paths).2 := by
  induction paths with
  | nil => exact .refl q t
  | cons path around ih =>
    unfold makeNested
    split
    · rename_i tree h
      exact makeDir_keeps h
    · split
      · rename_i fault tree h
        rw [h] at ih
        exact ih
      · rename_i made h
        rw [h] at ih
        split
        · rename_i tree h
          exact ih.trans (makeDir_keeps h)
        · exact ih
    · exact .refl q t

theorem makeDirs_keeps : Keeps q t (t.makeDirs path).2 :=
  makeNested_keeps (Path.ancestors path)

theorem removeAll_keeps (h : t.removeAll path = .ok t')
    (hq : ¬Path.target t.home path <+: q) : Keeps q t t' := by
  obtain ⟨place, inner, ⟨hlocate, -⟩, hi, rfl⟩ := removeAll_eq_ok_iff.mp h
  rw [locate_eq hlocate] at hq
  exact keeps_of_node rfl (by rw [node?_without hi, if_neg hq])

end FileTree
end Pagewright
