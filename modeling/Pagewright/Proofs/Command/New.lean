import Pagewright.Proofs.Command.Output

namespace Pagewright.Command

variable {host : Host} {directory : Text} {home q : Location}

def newFiles (home : Location) (directory : Text) : List Location :=
  (Scaffold.files []).map fun f => Path.target home directory ++ Path.names f.1

def writeFiles (directory : Text) : Task CommandFailure Unit := do
  for (path, contents) in Scaffold.files ((Path.fileName? directory).getD []) do
    writeOutput (Path.join directory path) contents
    Task.report ⟨.debug, "Wrote " ++ path⟩

/-- What is left to do for a new project when its files are there. -/
def finish (host : Host) (directory : Text) (npm : Option Text) : Task CommandFailure Unit := do
  if let some npm := npm then
    install host npm directory
  Task.print (timed ("✓ Project " ++ directory ++ " scaffolded in ") (nextSteps directory))

theorem new_eq (host : Host) (directory : Text) (installs : Bool) :
    new host directory installs = (do
      if (← Task.tree).exists? directory then
        throw (.failure (.fileExists directory))
      let npm ← Task.ofExcept (packageManager host installs)
      writeFiles directory
      finish host directory npm) := by
  simp only [writeFiles, finish, bind_assoc, pure_bind]
  rfl

def installation (npm directory : Text) : Invocation :=
  { directory
    program := npm
    args := "install".toList :: "--save-dev".toList :: Scaffold.packages
    input := []
    limit := none }

theorem install_tree (npm : Text) (w : World) :
    ((install host npm directory).runIn w).2.tree =
      (host.run (installation npm directory) w.tree).2 := by
  unfold install
  dsimp only
  rw [Task.runIn_bind, Task.runIn_print]
  dsimp only
  rw [Task.runIn_tree_bind, Task.runIn_setTree_bind]
  unfold installation
  dsimp only
  split <;> rfl

theorem finish_tree (npm : Option Text) (w : World) :
    ((finish host directory npm).runIn w).2.tree =
      match npm with
      | none => w.tree
      | some npm => (host.run (installation npm directory) w.tree).2 := by
  cases npm with
  | none => rfl
  | some npm =>
    dsimp only
    rw [← install_tree, finish]
    dsimp only
    rw [Task.runIn_bind]
    rcases (install host npm directory).runIn w with ⟨_ | _, _⟩ <;> rfl

theorem scaffold_paths : ∀ path ∈ (Scaffold.files []).map (·.1),
    Path.isAbsolute path = false ∧ ∀ name ∈ Path.names path, Path.IsName name := by
  decide

/-- The files of a new project are below its directory, whatever its name. -/
theorem target_newFiles {f : Text × Text} {name : Text} (hf : f ∈ Scaffold.files name) :
    Path.target home (Path.join directory f.1) ∈ newFiles home directory := by
  have hpaths : (Scaffold.files name).map (·.1) = (Scaffold.files []).map (·.1) := rfl
  have hmem : f.1 ∈ (Scaffold.files []).map (·.1) := hpaths ▸ List.mem_map_of_mem hf
  obtain ⟨hrel, hnames⟩ := scaffold_paths f.1 hmem
  obtain ⟨g, hg, hfg⟩ := List.mem_map.mp hmem
  rw [Path.target_join hrel, Path.foldl_step hnames]
  exact List.mem_map.mpr ⟨g, hg, by rw [hfg]⟩

theorem writeFiles_spares (hq : q ∉ newFiles home directory) :
    Task.Spares home q (writeFiles directory) := by
  unfold writeFiles
  refine Task.Spares.bind (Task.Spares.forIn (fun f hf _ => ?_) _) fun _ => Task.spares_pure _
  have hne : q ≠ Path.target home (Path.join directory f.1) := by
    rintro rfl
    exact hq (target_newFiles hf)
  refine (writeOutput_spares f.2 hne).bind fun _ => ?_
  exact (Task.spares_report _).bind fun _ => Task.spares_pure _

theorem packageManager_eq_ok_some {installs : Bool} {npm : Text}
    (h : packageManager host installs = .ok (some npm)) : installs ∧ host.npm = some npm := by
  unfold packageManager at h
  split at h
  · cases h
  · rename_i hi
    split at h
    · rename_i found hnpm
      cases h
      exact ⟨by simpa using hi, hnpm⟩
    · cases h

/-- A new project comes to a halt with its files written, or some of them, or none, or goes on to
install its packages. -/
theorem new_tree (host : Host) (directory : Text) (installs : Bool) (w : World) :
    ∃ t : FileTree, (t = w.tree ∨ t = ((writeFiles directory).runIn w).2.tree) ∧
      (((new host directory installs).runIn w).2.tree = t ∨
        ∃ npm, installs ∧ host.npm = some npm ∧ ((new host directory installs).runIn w).2.tree =
          (host.run (installation npm directory) t).2) := by
  rw [new_eq, Task.runIn_tree_bind]
  split
  · exact ⟨w.tree, .inl rfl, .inl rfl⟩
  · rw [Task.runIn_bind, Task.runIn_ofExcept]
    cases hnpm : packageManager host installs with
    | error fault => exact ⟨w.tree, .inl rfl, .inl rfl⟩
    | ok npm =>
      dsimp only
      rw [Task.runIn_bind]
      refine ⟨_, .inr rfl, ?_⟩
      rcases (writeFiles directory).runIn w with ⟨fault | _, w₁⟩
      · exact .inl rfl
      · dsimp only
        rw [finish_tree]
        cases npm with
        | none => exact .inl rfl
        | some npm =>
          obtain ⟨hi, hn⟩ := packageManager_eq_ok_some hnpm
          exact .inr ⟨npm, hi, hn, rfl⟩

/-- A new project is refused where something exists, and nothing changes. Otherwise all files are
as they were but for those of the project itself, up to what installing its packages does. None of
those was there before if nothing was at the place that the path of the directory leads to once
the directories missing on the way are made. -/
theorem new_keeps_files (host : Host) (directory : Text) (installs : Bool) (w : World) :
    (w.tree.exists? directory →
      (new host directory installs).runIn w = (.error (.failure (.fileExists directory)), w)) ∧
    ∃ t : FileTree,
      (∀ q ∉ newFiles w.tree.home directory, t.file? q = w.tree.file? q) ∧
      (w.tree.Lacks (Path.target w.tree.home directory) →
        ∀ q content, w.tree.file? q = some content → t.file? q = some content) ∧
      (((new host directory installs).runIn w).2.tree = t ∨
        ∃ npm, installs ∧ host.npm = some npm ∧ ((new host directory installs).runIn w).2.tree =
          (host.run (installation npm directory) t).2) := by
  refine ⟨fun hthere => ?_, ?_⟩
  · rw [new_eq, Task.runIn_tree_bind, if_pos hthere]
    rfl
  obtain ⟨t, ht, hafter⟩ := new_tree host directory installs w
  have hothers : ∀ q ∉ newFiles w.tree.home directory, t.file? q = w.tree.file? q := by
    intro q hq
    rcases ht with rfl | rfl
    · rfl
    · exact (writeFiles_spares hq w rfl).file
  refine ⟨t, hothers, fun hlacks q content hfile => ?_, hafter⟩
  have hq : q ∉ newFiles w.tree.home directory := by
    intro hq
    obtain ⟨f, -, rfl⟩ := List.mem_map.mp hq
    have hnone := hlacks _ (List.prefix_append (Path.target w.tree.home directory) (Path.names f.1))
    simp [FileTree.file?, hnone] at hfile
  rw [hothers q hq, hfile]

def occupied : FileTree :=
  ⟨["top"], [(["demo"], .directory), (["demo", "package.json"], .file (Text.encode "\x7b\x7d"))]⟩

theorem occupied_lacks : occupied.Lacks ["top", "fresh"] := by
  rintro q ⟨below, rfl⟩
  rfl

theorem new_keeps_files_beside :
    (new ⟨none, fun _ t => (.exited 0 .empty, t)⟩ "demo" true).runIn (World.ofTree occupied) =
        (.error (.failure (.fileExists "demo")), World.ofTree occupied) ∧
      ((new ⟨none, fun _ t => (.exited 0 .empty, t)⟩ "fresh" false).runIn
        (World.ofTree occupied)).2.tree.file? ["top", "demo", "package.json"] =
        some (Text.encode "\x7b\x7d") := by
  constructor
  · exact (new_keeps_files _ _ _ _).1 (by decide)
  · obtain ⟨-, t, -, hkept, htree | ⟨npm, h, -⟩⟩ :=
      new_keeps_files ⟨none, fun _ t => (.exited 0 .empty, t)⟩ "fresh" false (World.ofTree occupied)
    · rw [htree]
      exact hkept occupied_lacks _ _ rfl
    · cases h

/-- A path that leads nowhere comes to lead to a directory with files, and one is written over. -/
theorem new_overwrites :
    occupied.exists? "missing/../demo" = false ∧
      ((new ⟨none, fun _ t => (.exited 0 .empty, t)⟩ "missing/../demo" false).runIn
        (World.ofTree occupied)).2.tree.file? ["top", "demo", "package.json"] ≠
        occupied.file? ["top", "demo", "package.json"] := by
  decide +kernel

end Pagewright.Command
