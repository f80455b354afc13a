import Pagewright.Command
import Pagewright.Proofs.Task

namespace Pagewright

variable {home q : Location}

namespace Task

theorem readText_spares (path : Text) : Spares home q (readText path) :=
  spares_tree.bind fun _ => spares_ofExcept _

end Task

theorem Pointer.find_spares (component : Text) : Task.Spares home q (Pointer.find component) := by
  refine (Task.readText_spares component).bind fun text => ?_
  split
  · exact (Task.spares_report _).bind fun _ => Task.spares_pure _
  · exact Task.spares_throw _

theorem Source.load_spares [CharacterNames] (path : Text) :
    Task.Spares home q (Source.load path) := by
  refine (Task.readText_spares path).bind fun text => (Task.spares_ofExcept _).bind fun source => ?_
  exact (Task.spares_report _).bind fun _ => Task.spares_pure _

namespace Binding

theorem load_spares [CharacterNames] (pointer : Pointer) (root : Text) :
    Task.Spares home q (Binding.load pointer root) := by
  refine (Source.load_spares _).bind fun source => (Task.spares_ofExcept _).bind fun b => ?_
  refine Task.spares_tree.bind fun tree => ?_
  split
  · exact (Task.spares_throw _).bind fun _ => (Task.spares_report _).bind fun _ => Task.spares_pure _
  · exact (Task.spares_report _).bind fun _ => Task.spares_pure _

theorem extract_spares [CharacterNames] (b : Binding) : Task.Spares home q b.extract := by
  refine (Source.load_spares _).bind fun source => ?_
  exact (Task.spares_reportAll _).bind fun _ => Task.spares_ofExcept _

theorem server_spares [CharacterNames] (b : Binding) : Task.Spares home q b.server := by
  refine b.extract_spares.bind fun e => (Task.spares_ofExcept _).bind fun t => ?_
  exact (Task.spares_report _).bind fun _ => Task.spares_pure _

end Binding

namespace Command

theorem loadBinding_spares [CharacterNames] (root component : Text) :
    Task.Spares home q (loadBinding root component) := by
  refine ((Pointer.find_spares _).mapError _).bind fun pointer => ?_
  exact (Binding.load_spares pointer root).mapError _

def makeAround (path : Text) : Task CommandFailure Unit :=
  match Path.parent? path with
  | some (c :: cs) =>
    Task.mapError (.during (.creating (c :: cs)) ∘ .os) (Task.changeAlways (·.makeDirs (c :: cs)))
  | _ => pure ()

theorem writeOutput_eq (path contents : Text) :
    writeOutput path contents = makeAround path >>= fun _ =>
      Task.mapError (.during (.writing path) ∘ .os)
        (Task.change (·.write path (Text.encode contents))) := by
  unfold writeOutput makeAround
  rcases Path.parent? path with _ | _ | ⟨c, cs⟩ <;> rfl

/-- Making directories changes no file. -/
theorem makeAround_spares (path : Text) : Task.Spares home q (makeAround path) := by
  unfold makeAround
  split
  · exact (Task.spares_changeAlways fun _ _ => FileTree.makeDirs_keeps).mapError _
  · exact Task.spares_pure _

theorem writeOutput_spares {path : Text} (contents : Text) (hq : q ≠ Path.target home path) :
    Task.Spares home q (writeOutput path contents) := by
  rw [writeOutput_eq]
  refine (makeAround_spares path).bind fun _ => (Task.spares_change ?_).mapError _
  rintro t t' rfl h
  exact FileTree.write_keeps h hq

variable {path contents : Text} {w w' : World}

/-- An output that could not be written changed no file. -/
theorem writeOutput_failed {f : CommandFailure}
    (h : (writeOutput path contents).runIn w = (.error f, w')) :
    FileTree.Keeps q w.tree w'.tree := by
  have hmade : FileTree.Keeps q w.tree ((makeAround path).runIn w).2.tree :=
    makeAround_spares path w rfl
  rw [writeOutput_eq] at h
  rcases Task.runIn_bind_error h with h | ⟨_, w₁, hok, h⟩
  · rw [h] at hmade
    exact hmade
  · rw [hok] at hmade
    rw [Task.runIn_mapError, Task.runIn_change] at h
    split at h
    · cases h
    · cases h
      exact hmade

/-- An output that was written is what stands at its path. -/
theorem writeOutput_written (h : (writeOutput path contents).runIn w = (.ok (), w')) :
    w'.tree.file? (Path.target w.tree.home path) = some (Text.encode contents) := by
  rw [writeOutput_eq, Task.runIn_bind] at h
  have hmade : FileTree.Keeps [] w.tree ((makeAround path).runIn w).2.tree :=
    makeAround_spares path w rfl
  rcases hr : (makeAround path).runIn w with ⟨f | _, w₁⟩
  · simp [hr] at h
  · rw [hr] at h hmade
    simp only [Task.runIn_mapError, Task.runIn_change] at h
    split at h
    · rename_i t ht
      cases h
      rw [← hmade.home]
      exact FileTree.write_file ht
    · cases h

end Command
end Pagewright
