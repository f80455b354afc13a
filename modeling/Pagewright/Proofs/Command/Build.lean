import Pagewright.Proofs.Bundle
import Pagewright.Proofs.Command.Output

namespace Pagewright.Command

variable {host : Host} {root : Text} {options : BuildOptions} {home q : Location}

/-- The part of a build that comes before its outputs: the server text and the bundle. -/
def compiled [CharacterNames] (host : Host) (root : Text) (options : BuildOptions) :
    Task CommandFailure (Text × Bundle) := do
  let b ← loadBinding root options.component
  let server ← Task.mapError .failure b.server
  Task.print (timed "✓ Backend code compiled in " ['s'])
  let bundle ← Task.mapError .failure (Bundle.run host b.entry options.bundler root)
  Task.print (timed "✓ Frontend code compiled in " ['s'])
  return (server, bundle)

/-- The last lines of a build, which tell where its outputs are. -/
def conclusion (root : Text) (options : BuildOptions) : Task CommandFailure Unit := do
  Task.report ⟨.info, "Wrote " ++ Path.join root options.server ++ " and "
    ++ Path.join root options.page⟩
  Task.print [.text ("You can now run the app with `python3 " ++ options.server ++ "`\n")]

theorem build_eq [CharacterNames] (host : Host) (root : Text) (options : BuildOptions) :
    build host root options = (do
      let (server, bundle) ← compiled host root options
      writeOutput (Path.join root options.server) server
      writeOutput (Path.join root options.page) bundle.page
      conclusion root options) := by
  simp only [build, compiled, conclusion, bind_assoc, pure_bind]

theorem compiled_spares [CharacterNames] (hcache : ¬Bundle.cachePlace home root <+: q)
    (hhost : ∀ entry, host.Spares (Bundle.invocation entry options.bundler root) q) :
    Task.Spares home q (compiled host root options) := by
  refine (loadBinding_spares root _).bind fun b => (b.server_spares.mapError _).bind fun server => ?_
  refine (Task.spares_print _).bind fun _ => ?_
  refine ((Bundle.run_spares hcache (hhost b.entry)).mapError _).bind fun bundle => ?_
  exact (Task.spares_print _).bind fun _ => Task.spares_pure _

/-- A build that fails leaves every file as it was that lies outside the build cache and that the
bundler spares, or else the file is the server: it was written, and then the page could not be
written. -/
theorem build_failed [CharacterNames] {w w' : World} {f : CommandFailure}
    (hcache : ¬Bundle.cachePlace w.tree.home root <+: q)
    (hhost : ∀ entry, host.Spares (Bundle.invocation entry options.bundler root) q)
    (hfail : (build host root options).runIn w = (.error f, w')) :
    w'.tree.file? q = w.tree.file? q ∨
      q = Path.target w.tree.home (Path.join root options.server) ∧
      ∃ server bundle w₁ w₂,
        (compiled host root options).runIn w = (.ok (server, bundle), w₁) ∧
        (writeOutput (Path.join root options.server) server).runIn w₁ = (.ok (), w₂) ∧
        (writeOutput (Path.join root options.page) bundle.page).runIn w₂ = (.error f, w') ∧
        w'.tree.file? q = some (Text.encode server) := by
  have hcompiled := compiled_spares hcache hhost w rfl
  rw [build_eq] at hfail
  rcases Task.runIn_bind_error hfail with h | ⟨⟨server, bundle⟩, w₁, hw₁, hfail⟩
  · rw [h] at hcompiled
    exact .inl hcompiled.file
  rw [hw₁] at hcompiled
  rcases Task.runIn_bind_error hfail with h | ⟨_, w₂, hw₂, hfail⟩
  · exact .inl (hcompiled.trans (writeOutput_failed h)).file
  rcases Task.runIn_bind_error hfail with h | ⟨_, w₃, -, hfail⟩
  · have hpage : FileTree.Keeps q w₂.tree w'.tree := writeOutput_failed h
    by_cases hq : q = Path.target w.tree.home (Path.join root options.server)
    · right
      refine ⟨hq, server, bundle, w₁, w₂, hw₁, hw₂, h, ?_⟩
      rw [hpage.file, hq, ← hcompiled.home]
      exact writeOutput_written hw₂
    · left
      have hserver := writeOutput_spares server hq w₁ hcompiled.home
      rw [hw₂] at hserver
      exact ((hcompiled.trans hserver).trans hpage).file
  · cases hfail

def project : FileTree :=
  { home := ["top"]
    entries :=
      [ (["App.py"], .file (Text.encode
          "app = require_svelte(\"./App.svelte\")\n@app.backend\ndef f():\n pass\n"))
      , (["App.svelte"], .file (Text.encode "<!-- point App.py:app -->"))
      , (["dist"], .directory) ] }

def blocked : BuildOptions :=
  ⟨"App.svelte", "dist", "main.py", ⟨"bundle", [], 1000⟩⟩

def failing : Host :=
  ⟨none, fun _ t => (.exited 1 .empty, t)⟩

def writing : Host :=
  ⟨none, fun _ t =>
    (.exited 0 .empty, t.set [Bundle.cacheName, "bundle.js"] (.file (Text.encode "run()")))⟩

theorem build_failed_bundling :
    ((build failing "." blocked).runIn (World.ofTree project)).1.isOk = false ∧
      ((build failing "." blocked).runIn (World.ofTree project)).2.tree.file? ["top", "main.py"] =
        none := by
  have hfailed : ((build failing "." blocked).runIn (World.ofTree project)).1.isOk = false := by
    decide +kernel
  have hcompiled : ((compiled failing "." blocked).runIn (World.ofTree project)).1.isOk = false := by
    decide +kernel
  refine ⟨hfailed, ?_⟩
  rcases hrun : (build failing "." blocked).runIn (World.ofTree project) with ⟨f | _, w⟩
  · have hcache : ¬Bundle.cachePlace ["top"] "." <+: ["top", "main.py"] := by decide
    rcases build_failed hcache (fun _ t => .refl _ t) hrun with h | ⟨-, _, _, w₁, _, h, -⟩
    · rw [h]
      decide +kernel
    · rw [h] at hcompiled
      cases hcompiled
  · rw [hrun] at hfailed
    cases hfailed

theorem writing_spares (i : Invocation) : writing.Spares i ["top", "main.py"] := by
  intro t
  have hi : t.inside (t.home ++ [Bundle.cacheName, "bundle.js"]) =
      .ok [Bundle.cacheName, "bundle.js"] :=
    FileTree.inside_eq_ok_iff.mpr ⟨rfl, by simp⟩
  refine FileTree.keeps_of_node rfl ?_
  rw [writing, FileTree.node?_set hi, if_neg]
  intro h
  have hlast := congrArg List.getLast? h
  simp at hlast

/-- The page of a build cannot be written, and the server that was not there before is. -/
theorem build_leaves_server :
    ¬Bundle.cachePlace project.home "." <+: ["top", "main.py"] ∧
      (∀ entry, writing.Spares (Bundle.invocation entry blocked.bundler ".") ["top", "main.py"]) ∧
      project.file? ["top", "main.py"] = none ∧
      ((build writing "." blocked).runIn (World.ofTree project)).1.isOk = false ∧
      (((build writing "." blocked).runIn (World.ofTree project)).2.tree.file?
        ["top", "main.py"]).isSome := by
  refine ⟨by decide, fun entry => writing_spares _, by decide, ?_⟩
  decide +kernel

end Pagewright.Command
