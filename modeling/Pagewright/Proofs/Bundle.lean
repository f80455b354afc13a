import Pagewright.Bundle
import Pagewright.Proofs.Files.Making
import Pagewright.Proofs.Task

namespace Pagewright

/-- A program leaves the file at a place as it is. -/
def Host.Spares (host : Host) (i : Invocation) (q : Location) : Prop :=
  ∀ t, FileTree.Keeps q t (host.run i t).2

namespace Bundle

variable {host : Host} {entry root : Text} {bundler : Bundler} {home q : Location}

def cachePlace (home : Location) (root : Text) : Location :=
  Path.target home (cachePath root)

def opened (t : FileTree) (root : Text) : Except OsFault Unit × FileTree :=
  if t.exists? (cachePath root) then
    match t.removeAll (cachePath root) with
    | .ok cleared => cleared.makeDirs (cachePath root)
    | .error fault => (.error fault, t)
  else t.makeDirs (cachePath root)

def closed (t : FileTree) (root : Text) : FileTree :=
  match t.removeAll (cachePath root) with
  | .ok cleared => cleared
  | .error _ => t

/-- The bundle of a run that ended, read from the tree that it left. -/
def result (bundler : Bundler) (root : Text) (outcome : Outcome) (left : FileTree) :
    Except Failure Bundle :=
  match fault? bundler outcome with
  | some fault => .error (.bundle fault)
  | none => collect left root

theorem openCache_runIn (root : Text) (w : World) :
    ((openCache root).runIn w).1 = (opened w.tree root).1.mapError .os ∧
      ((openCache root).runIn w).2.tree = (opened w.tree root).2 := by
  unfold openCache opened
  dsimp only
  rw [Task.runIn_tree_bind]
  split
  · rw [Task.runIn_report_bind, Task.runIn_bind, Task.runIn_change]
    cases w.tree.removeAll (cachePath root) <;> exact ⟨rfl, rfl⟩
  · exact ⟨rfl, rfl⟩

theorem closeCache_runIn (root : Text) (w : World) :
    ((closeCache root).runIn w).1 = .ok () ∧
      ((closeCache root).runIn w).2.tree = closed w.tree root := by
  unfold closeCache closed
  dsimp only
  rw [Task.runIn_tree_bind]
  cases w.tree.removeAll (cachePath root) with
  | ok cleared => exact ⟨rfl, rfl⟩
  | error fault => cases fault <;> exact ⟨rfl, rfl⟩

/-- The bundler sees the files with the open cache, and its result is read from what it leaves. -/
theorem runOpen_runIn (host : Host) (entry : Text) (bundler : Bundler) (root : Text) (w : World) :
    ((runOpen host entry bundler root).runIn w).1 =
        result bundler root (host.run (invocation entry bundler root) w.tree).1
          (host.run (invocation entry bundler root) w.tree).2 ∧
      ((runOpen host entry bundler root).runIn w).2.tree =
        (host.run (invocation entry bundler root) w.tree).2 := by
  unfold runOpen result
  dsimp only
  rw [Task.runIn_report_bind, Task.runIn_tree_bind, Task.runIn_setTree_bind]
  cases fault? bundler (host.run (invocation entry bundler root) w.tree).1 with
  | some fault => exact ⟨rfl, rfl⟩
  | none =>
    rw [Task.runIn_bind, Task.runIn_ofExcept]
    cases collect (host.run (invocation entry bundler root) w.tree).2 root <;> exact ⟨rfl, rfl⟩

/-- A run of the bundler depends on the tree alone: the cache is opened, the bundler runs, and
whatever became of that, the cache is closed. -/
theorem run_runIn (host : Host) (entry : Text) (bundler : Bundler) (root : Text) (w : World) :
    (((run host entry bundler root).runIn w).1, ((run host entry bundler root).runIn w).2.tree) =
      match opened w.tree root with
      | (.error fault, t) => (.error (.os fault), t)
      | (.ok (), t) =>
        let (outcome, left) := host.run (invocation entry bundler root) t
        (result bundler root outcome left, closed left root) := by
  obtain ⟨hresult, htree⟩ := openCache_runIn root w
  rw [run, Task.runIn_bind]
  rcases hopen : (openCache root).runIn w with ⟨r, w₁⟩
  rcases ho : opened w.tree root with ⟨made, t⟩
  rw [hopen, ho] at hresult htree
  simp only at hresult htree
  subst hresult htree
  cases made with
  | error fault => simp [Except.mapError]
  | ok _ =>
    obtain ⟨hrun, hleft⟩ := runOpen_runIn host entry bundler root w₁
    obtain ⟨hclosed, hafter⟩ :=
      closeCache_runIn root ((runOpen host entry bundler root).runIn w₁).2
    simp only [Except.mapError, Task.runIn_followedBy]
    rcases hc : (closeCache root).runIn ((runOpen host entry bundler root).runIn w₁).2 with ⟨c, w₂⟩
    rw [hc] at hclosed hafter
    simp only at hclosed hafter
    subst hclosed
    simp only [hrun, hafter, hleft]

theorem run_of_opened {w : World} {t left : FileTree} {outcome : Outcome}
    (hopened : opened w.tree root = (.ok (), t))
    (hrun : host.run (invocation entry bundler root) t = (outcome, left)) :
    ((run host entry bundler root).runIn w).1 = result bundler root outcome left ∧
      ((run host entry bundler root).runIn w).2.tree = closed left root := by
  have heq := run_runIn host entry bundler root w
  simp only [hopened, hrun] at heq
  exact Prod.mk.inj heq

theorem opened_keeps {t : FileTree} (hq : ¬cachePlace t.home root <+: q) :
    FileTree.Keeps q t (opened t root).2 := by
  unfold opened
  split
  · cases hr : t.removeAll (cachePath root) with
    | error fault => exact .refl q t
    | ok cleared => exact (FileTree.removeAll_keeps hr hq).trans FileTree.makeDirs_keeps
  · exact FileTree.makeDirs_keeps

theorem closed_keeps {t : FileTree} (hq : ¬cachePlace t.home root <+: q) :
    FileTree.Keeps q t (closed t root) := by
  unfold closed
  cases hr : t.removeAll (cachePath root) with
  | error fault => exact .refl q t
  | ok cleared => exact FileTree.removeAll_keeps hr hq

/-- A run leaves a file outside the cache as it is if the bundler does. -/
theorem run_spares (hq : ¬cachePlace home root <+: q)
    (hhost : host.Spares (invocation entry bundler root) q) :
    Task.Spares home q (run host entry bundler root) := by
  rintro w rfl
  have hrun := congrArg Prod.snd (run_runIn host entry bundler root w)
  have hopened := opened_keeps hq
  rcases ho : opened w.tree root with ⟨made, t⟩
  rw [ho] at hrun hopened
  simp only at hrun hopened
  rw [hrun]
  cases made with
  | error fault => exact hopened
  | ok _ =>
    have hleft := hopened.trans (hhost t)
    exact hleft.trans (closed_keeps (hleft.home ▸ hq))

section

variable {r inner : Location} {t left : FileTree} {w : World} {outcome : Outcome}

/-- Where the cache is to be, there is nothing, or a directory. -/
def Clearable (t : FileTree) (cache : Location) : Prop :=
  t.Lacks cache ∨ t.node? cache = some .directory

def withCache (t : FileTree) (root : Text) (inner : Location) : FileTree :=
  ((t.without inner).makeDirs (cachePath root)).2

theorem cacheName_isName : Path.IsName cacheName := by
  decide

theorem locate_cachePath_iff (hroot : root ≠ []) :
    t.locate (cachePath root) = .ok q ↔ ∃ r, t.LeadsTo root r ∧ q = r ++ [cacheName] :=
  FileTree.locate_join_name hroot cacheName_isName

theorem locate_cachePath (hr : t.LeadsTo root r) :
    t.locate (cachePath root) = .ok (r ++ [cacheName]) :=
  (locate_cachePath_iff hr.ne_nil).mpr ⟨r, hr, rfl⟩

theorem exists?_cachePath (hr : t.LeadsTo root r) :
    t.exists? (cachePath root) = (t.node? (r ++ [cacheName])).isSome := by
  rw [FileTree.exists?, FileTree.nodeAt, locate_cachePath hr]
  cases hn : t.node? (r ++ [cacheName]) <;> simp [bind, Except.bind, hn, Except.isOk, Except.toBool]

/-- When the cache was removed, nothing is in the way of making it anew. -/
theorem makeable_cachePath (hr : t.LeadsTo root r) (hi : t.inside (r ++ [cacheName]) = .ok inner) :
    Path.Along (t.without inner).Makeable ((t.without inner).start (cachePath root))
      (Path.names (cachePath root)) := by
  obtain ⟨-, hway, htarget⟩ := FileTree.leadsTo_iff.mp hr
  have hstart : (t.without inner).start (cachePath root) = t.start root := by
    rw [FileTree.start, cachePath, Path.isAbsolute_join cacheName_isName.isAbsolute, FileTree.start]
    rfl
  have hbelow : ∀ q, r ++ [cacheName] <+: q → (t.without inner).Makeable q := by
    rintro q ⟨more, rfl⟩
    obtain ⟨hplace, hne⟩ := FileTree.inside_eq_ok_iff.mp hi
    refine .inr ⟨by rw [FileTree.node?_without hi, if_pos (List.prefix_append _ _)],
      inner ++ more, FileTree.inside_eq_ok_iff.mpr ⟨?_, by simp [hne]⟩⟩
    rw [← hplace, List.append_assoc]
    rfl
  have hkept : ∀ q, t.IsDirectory q → (t.without inner).Makeable q := by
    intro q hq
    by_cases hc : r ++ [cacheName] <+: q
    · exact hbelow q hc
    · left
      rw [FileTree.IsDirectory, FileTree.node?_without hi, if_neg hc]
      exact hq
  have hlast : (Path.names root).foldl Path.step (t.start root) = r := htarget
  rw [hstart, cachePath, Path.along_join cacheName_isName, hlast]
  exact ⟨hway.mono hkept, hbelow _ List.prefix_rfl⟩

/-- A run starts with a cache made anew, whatever was there before. -/
theorem opened_eq (hr : t.LeadsTo root r) (hi : t.inside (r ++ [cacheName]) = .ok inner)
    (hc : Clearable t (r ++ [cacheName])) :
    opened t root = (.ok (), withCache t root inner) := by
  obtain ⟨made, hmade, -, -⟩ := FileTree.makeDirs_ok (makeable_cachePath hr hi)
  rw [opened, exists?_cachePath hr, withCache, hmade]
  rcases hc with hlacks | hdir
  · rw [hlacks _ List.prefix_rfl, ← hmade, FileTree.without_of_lacks hlacks hi]
    rfl
  · have hremove : t.removeAll (cachePath root) = .ok (t.without inner) :=
      FileTree.removeAll_eq_ok_iff.mpr ⟨_, inner, ⟨locate_cachePath hr, hdir⟩, hi, rfl⟩
    rw [hdir, hremove, ← hmade]
    rfl

/-- Closing the cache changes nothing outside it. -/
theorem closed_node (hq : ¬cachePlace t.home root <+: q) :
    (closed t root).node? q = t.node? q := by
  unfold closed
  split
  · rename_i cleared h
    obtain ⟨place, inner, ⟨hlocate, -⟩, hi, rfl⟩ := FileTree.removeAll_eq_ok_iff.mp h
    rw [cachePlace, FileTree.locate_eq hlocate] at hq
    rw [FileTree.node?_without hi, if_neg hq]
  · rfl

/-- The cache is gone when it is closed, except if there is one to which the path of the root
does not lead any more. -/
theorem closed_lacks_iff (hroot : root ≠ []) (hi : t.inside (r ++ [cacheName]) = .ok inner)
    (hplace : cachePlace t.home root = r ++ [cacheName]) (hc : Clearable t (r ++ [cacheName])) :
    (closed t root).Lacks (r ++ [cacheName]) ↔
      t.Lacks (r ++ [cacheName]) ∨ t.LeadsTo root r := by
  cases hremove : t.removeAll (cachePath root) with
  | ok cleared =>
    obtain ⟨place, inner', ⟨hlocate, -⟩, hi', rfl⟩ := FileTree.removeAll_eq_ok_iff.mp hremove
    obtain ⟨r', hr', hplace'⟩ := (locate_cachePath_iff hroot).mp hlocate
    have hsame : r' ++ [cacheName] = r ++ [cacheName] := by
      rw [← hplace', ← FileTree.locate_eq hlocate]
      exact hplace
    obtain rfl : r' = r := List.append_cancel_right hsame
    obtain rfl := hplace'
    have hgone := FileTree.lacks_without hi'
    simp only [closed, hremove]
    exact ⟨fun _ => .inr hr', fun _ => hgone⟩
  | error fault =>
    simp only [closed, hremove]
    refine ⟨.inl, fun h => h.elim id fun hr => hc.resolve_right fun hdir => ?_⟩
    have hok := FileTree.removeAll_eq_ok_iff.mpr
      ⟨_, inner, ⟨locate_cachePath hr, hdir⟩, hi, rfl⟩
    rw [hremove] at hok
    cases hok

theorem scriptName_isName : Path.IsName "bundle.js" := by
  decide

theorem styleName_isName : Path.IsName "bundle.css" := by
  decide

/-- A bundle is made of the two texts in the cache. Only the stylesheet may be missing. -/
def HasBundle (t : FileTree) (cache : Location) (b : Bundle) : Prop :=
  t.text? (cache ++ ["bundle.js".toList]) = some b.script ∧
    b.style = t.text? (cache ++ ["bundle.css".toList]) ∧
    (b.style = none → t.node? (cache ++ ["bundle.css".toList]) = none)

/-- Without a script there is no bundle; without a stylesheet there is one. -/
theorem collect_eq (t : FileTree) (root : Text) :
    collect t root =
      match t.readText (Path.join (cachePath root) "bundle.js") with
      | .error fault =>
        .error (.bundle (.noScript (Path.join (cachePath root) "bundle.js") fault))
      | .ok script =>
        match t.readText (Path.join (cachePath root) "bundle.css") with
        | .ok style => .ok ⟨script, some style⟩
        | .error .notFound => .ok ⟨script, none⟩
        | .error fault => .error (.os fault) := by
  unfold collect
  dsimp only
  cases t.readText (Path.join (cachePath root) "bundle.js") with
  | error fault => rfl
  | ok script =>
    cases t.readText (Path.join (cachePath root) "bundle.css") with
    | ok style => rfl
    | error fault => cases fault <;> rfl

/-- What is collected from a cache at a known place is the bundle that it has. -/
theorem collect_eq_ok_iff {c : Location} (hc : t.LeadsTo (cachePath root) c) {b : Bundle} :
    collect t root = .ok b ↔ HasBundle t c b := by
  have hscript : ∀ s, t.readText (Path.join (cachePath root) "bundle.js") = .ok s ↔
      t.text? (c ++ ["bundle.js".toList]) = some s :=
    fun s => FileTree.readText_entry_ok_iff hc scriptName_isName
  have hstyle : ∀ s, t.readText (Path.join (cachePath root) "bundle.css") = .ok s ↔
      t.text? (c ++ ["bundle.css".toList]) = some s :=
    fun s => FileTree.readText_entry_ok_iff hc styleName_isName
  have hmissing := FileTree.readText_entry_notFound_iff hc styleName_isName
  obtain ⟨script, style⟩ := b
  rw [collect_eq, HasBundle, ← hscript, ← hmissing]
  cases t.readText (Path.join (cachePath root) "bundle.js") with
  | error fault => simp
  | ok found =>
    cases hread : t.readText (Path.join (cachePath root) "bundle.css") with
    | ok text =>
      rw [(hstyle text).mp hread]
      constructor
      · intro h
        cases h
        exact ⟨rfl, rfl, fun h => by cases h⟩
      · rintro ⟨hs, rfl, -⟩
        rw [Except.ok.inj hs]
    | error fault =>
      have hnone : t.text? (c ++ ["bundle.css".toList]) = none := by
        refine Option.eq_none_iff_forall_ne_some.mpr fun text htext => ?_
        rw [(hstyle text).mpr htext] at hread
        cases hread
      rw [hnone]
      cases fault <;> simp [eq_comm]

/-- A script that can be read is in the cache, where the path of the root leads. -/
theorem leadsTo_of_script {text : Text}
    (h : t.readText (Path.join (cachePath root) "bundle.js") = .ok text) :
    t.LeadsTo (cachePath root) (cachePlace t.home root) ∧
      t.text? (cachePlace t.home root ++ ["bundle.js".toList]) = some text := by
  obtain ⟨q, hlocate, htext⟩ := FileTree.readText_eq_ok_iff.mp h
  have hne : cachePath root ≠ [] :=
    Path.join_ne_nil (.inr (by decide)) cacheName_isName.isAbsolute
  obtain ⟨c, hc, rfl⟩ := (FileTree.locate_join_name hne scriptName_isName).mp hlocate
  rw [cachePlace, FileTree.locate_eq hc.1]
  exact ⟨hc, htext⟩

theorem leadsTo_of_collect {b : Bundle} (h : collect t root = .ok b) :
    t.LeadsTo (cachePath root) (cachePlace t.home root) := by
  rw [collect_eq] at h
  cases hread : t.readText (Path.join (cachePath root) "bundle.js") with
  | error fault =>
    rw [hread] at h
    cases h
  | ok text => exact (leadsTo_of_script hread).1

/-- Without a script there is no bundle. -/
theorem collect_noScript (h : t.text? (cachePlace t.home root ++ ["bundle.js".toList]) = none) :
    ∃ fault, collect t root = .error (.bundle fault) := by
  rw [collect_eq]
  cases hread : t.readText (Path.join (cachePath root) "bundle.js") with
  | error fault => exact ⟨_, rfl⟩
  | ok text =>
    rw [(leadsTo_of_script hread).2] at h
    cases h

theorem fault?_eq_none_iff : fault? bundler outcome = none ↔ ∃ errors, outcome = .exited 0 errors := by
  unfold fault?
  split <;> simp_all

/-- What a run of the bundler comes to, from how the bundler ended and the tree that it left. -/
structure Scoped (root : Text) (r : Location) (outcome : Outcome) (left : FileTree)
    (result : Except Failure Bundle) (after : FileTree) : Prop where
  /-- Outside the cache everything stays as the bundler left it. -/
  outside : ∀ q, ¬r ++ [cacheName] <+: q → after.node? q = left.node? q
  /-- The cache is gone, unless the bundler left one and took away the way to it. -/
  gone : after.Lacks (r ++ [cacheName]) ↔ left.Lacks (r ++ [cacheName]) ∨ left.LeadsTo root r
  bundle : ∀ b, result = .ok b ↔ (∃ errors, outcome = .exited 0 errors) ∧
    left.LeadsTo root r ∧ HasBundle left (r ++ [cacheName]) b
  fault : (∀ errors, outcome ≠ .exited 0 errors) ∨
      left.text? (r ++ [cacheName] ++ ["bundle.js".toList]) = none →
    ∃ fault, result = .error (.bundle fault)

/-- What a run leaves once the cache that it opened is closed again. -/
theorem scoped_closed (hroot : root ≠ []) (hi : left.inside (r ++ [cacheName]) = .ok inner)
    (hplace : cachePlace left.home root = r ++ [cacheName])
    (hleft : Clearable left (r ++ [cacheName])) :
    Scoped root r outcome left (result bundler root outcome left) (closed left root) where
  outside q hq := closed_node (hplace ▸ hq)
  gone := closed_lacks_iff hroot hi hplace hleft
  bundle b := by
    constructor
    · intro h
      unfold result at h
      split at h
      · cases h
      · rename_i hended
        have hc := leadsTo_of_collect h
        rw [hplace] at hc
        obtain ⟨r', hr', hsame⟩ := (locate_cachePath_iff hroot).mp hc.1
        obtain rfl : r = r' := List.append_cancel_right hsame
        exact ⟨fault?_eq_none_iff.mp hended, hr', (collect_eq_ok_iff hc).mp h⟩
    · rintro ⟨hended, hr, hbundle⟩
      have hdir : left.node? (r ++ [cacheName]) = some .directory := by
        refine hleft.resolve_left fun hlacks => ?_
        have hscript := hbundle.1
        rw [FileTree.text?, FileTree.file?, hlacks _ (List.prefix_append _ _)] at hscript
        cases hscript
      rw [result, fault?_eq_none_iff.mpr hended]
      exact (collect_eq_ok_iff ⟨locate_cachePath hr, hdir⟩).mpr hbundle
  fault h := by
    unfold result
    split
    · exact ⟨_, rfl⟩
    · rename_i hended
      obtain ⟨errors, hended⟩ := fault?_eq_none_iff.mp hended
      rcases h with h | h
      · exact absurd hended (h errors)
      · exact collect_noScript (hplace ▸ h)

/-- A run of the bundler in a root that is there. What the cache held before the run plays no part
in it. -/
theorem run_scoped (hr : w.tree.LeadsTo root r)
    (hi : w.tree.inside (r ++ [cacheName]) = .ok inner)
    (hc : Clearable w.tree (r ++ [cacheName]))
    (hrun : host.run (invocation entry bundler root) (withCache w.tree root inner) =
      (outcome, left))
    (hhome : left.home = w.tree.home) (hleft : Clearable left (r ++ [cacheName])) :
    Scoped root r outcome left ((run host entry bundler root).runIn w).1
        ((run host entry bundler root).runIn w).2.tree ∧
      ∀ w' : World, w'.tree.without inner = w.tree.without inner → w'.tree.LeadsTo root r →
        Clearable w'.tree (r ++ [cacheName]) →
        ((run host entry bundler root).runIn w').1 = ((run host entry bundler root).runIn w).1 ∧
          ((run host entry bundler root).runIn w').2.tree =
            ((run host entry bundler root).runIn w).2.tree := by
  have hruns : ∀ w' : World, w'.tree.without inner = w.tree.without inner →
      w'.tree.LeadsTo root r → Clearable w'.tree (r ++ [cacheName]) →
      ((run host entry bundler root).runIn w').1 = result bundler root outcome left ∧
        ((run host entry bundler root).runIn w').2.tree = closed left root := by
    intro w' hsame hr' hc'
    have hhome' : w'.tree.home = w.tree.home :=
      show (w'.tree.without inner).home = (w.tree.without inner).home by rw [hsame]
    have hi' : w'.tree.inside (r ++ [cacheName]) = .ok inner :=
      (FileTree.inside_eq hhome' _).trans hi
    have hopened := opened_eq hr' hi' hc'
    rw [withCache, hsame] at hopened
    exact run_of_opened hopened hrun
  have hplace : cachePlace left.home root = r ++ [cacheName] := by
    rw [cachePlace, cachePath, cacheName_isName.target_join, hhome, FileTree.locate_eq hr.1]
  obtain ⟨hresult, hafter⟩ := hruns w rfl hr hc
  constructor
  · rw [hresult, hafter]
    exact scoped_closed hr.ne_nil ((FileTree.inside_eq hhome _).trans hi) hplace hleft
  · intro w' hsame hr' hc'
    obtain ⟨hresult', hafter'⟩ := hruns w' hsame hr' hc'
    exact ⟨hresult'.trans hresult.symm, hafter'.trans hafter.symm⟩

/-- A project in which an earlier run left its cache. -/
def stale : FileTree :=
  { home := ["top"]
    entries :=
      [ (["app"], .directory)
      , (["app", cacheName], .directory)
      , (["app", cacheName, "bundle.css"], .file (Text.encode "old")) ] }

def scripting : Host :=
  ⟨none, fun _ t =>
    (.exited 0 .empty, t.set ["app", cacheName, "bundle.js"] (.file (Text.encode "run()")))⟩

def bundled : FileTree :=
  { home := ["top"]
    entries :=
      [ (["app"], .directory)
      , (["app", cacheName], .directory)
      , (["app", cacheName, "bundle.js"], .file (Text.encode "run()")) ] }

theorem run_scoped_stale :
    ((run scripting "run()" ⟨"bundle", [], 1000⟩ "app").runIn (World.ofTree stale)).1 =
        .ok ⟨"run()", none⟩ ∧
      ((run scripting "run()" ⟨"bundle", [], 1000⟩ "app").runIn (World.ofTree stale)).2.tree.Lacks
        ["top", "app", cacheName] := by
  have hroot : stale.LeadsTo "app" ["top", "app"] := ⟨rfl, rfl⟩
  have hi : stale.inside ["top", "app", cacheName] = .ok ["app", cacheName] := rfl
  have hstale : Clearable stale ["top", "app", cacheName] := .inr rfl
  have hrun : scripting.run (invocation "run()" ⟨"bundle", [], 1000⟩ "app")
      (withCache stale "app" ["app", cacheName]) = (.exited 0 .empty, bundled) := rfl
  have hbundled : Clearable bundled ["top", "app", cacheName] := .inr rfl
  have hscoped : Scoped "app" ["top", "app"] _ bundled _ _ :=
    (run_scoped (w := World.ofTree stale) hroot hi hstale hrun rfl hbundled).1
  have hleads : bundled.LeadsTo "app" ["top", "app"] := ⟨rfl, rfl⟩
  have hbundle : HasBundle bundled ["top", "app", cacheName] ⟨"run()", none⟩ :=
    ⟨by decide, by decide, fun _ => rfl⟩
  exact ⟨(hscoped.bundle _).mpr ⟨⟨_, rfl⟩, hleads, hbundle⟩, hscoped.gone.mpr (.inr hleads)⟩

/-- The bundler takes away a directory on the way to the root, and the cache stays. -/
theorem run_leaves_cache :
    let start : FileTree := ⟨["top"], [(["sub"], .directory)]⟩
    let host : Host := ⟨none, fun _ t => (.exited 0 .empty, t.without ["sub"])⟩
    let after := ((run host [] ⟨"bundle", [], 1000⟩ "sub/..").runIn (World.ofTree start)).2.tree
    start.isDirectory "sub/.." ∧ start.node? ["top", cacheName] = none ∧
      after.node? ["top", cacheName] = some .directory := by
  decide +kernel

end

end Bundle
end Pagewright
