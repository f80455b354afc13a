import Pagewright.Proofs.Files.Tree
import Pagewright.Task

namespace Pagewright.Task

variable {ε ε' α β : Type}

@[simp]
theorem runIn_pure (a : α) (w : World) : (pure a : Task ε α).runIn w = (.ok a, w) := rfl

@[simp]
theorem runIn_throw (e : ε) (w : World) : (throw e : Task ε α).runIn w = (.error e, w) := rfl

@[simp]
theorem runIn_ofExcept (r : Except ε α) (w : World) : (ofExcept r).runIn w = (r, w) := rfl

@[simp]
theorem runIn_tree (w : World) : (tree : Task ε FileTree).runIn w = (.ok w.tree, w) := rfl

@[simp]
theorem runIn_setTree (t : FileTree) (w : World) :
    (setTree t : Task ε Unit).runIn w = (.ok (), { w with tree := t }) := rfl

@[simp]
theorem runIn_report (e : Event) (w : World) :
    (report e : Task ε Unit).runIn w = (.ok (), { w with events := w.events ++ [e] }) := rfl

@[simp]
theorem runIn_reportAll (es : List Event) (w : World) :
    (reportAll es : Task ε Unit).runIn w = (.ok (), { w with events := w.events ++ es }) := rfl

@[simp]
theorem runIn_print (ps : List Printed) (w : World) :
    (print ps : Task ε Unit).runIn w = (.ok (), { w with printed := w.printed ++ ps }) := rfl

@[simp]
theorem runIn_tree_bind (f : FileTree → Task ε α) (w : World) :
    (tree >>= f).runIn w = (f w.tree).runIn w := rfl

@[simp]
theorem runIn_setTree_bind (t : FileTree) (f : Unit → Task ε α) (w : World) :
    (setTree t >>= f).runIn w = (f ()).runIn { w with tree := t } := rfl

@[simp]
theorem runIn_report_bind (e : Event) (f : Unit → Task ε α) (w : World) :
    (report e >>= f).runIn w = (f ()).runIn { w with events := w.events ++ [e] } := rfl

/-- A task that fails skips what was to come after it. -/
theorem runIn_bind (t : Task ε α) (f : α → Task ε β) (w : World) :
    (t >>= f).runIn w =
      match t.runIn w with
      | (.ok a, w') => (f a).runIn w'
      | (.error e, w') => (.error e, w') := by
  change (ExceptT.bindCont f <| (t.runIn w).1).run (t.runIn w).2 = _
  rcases t.runIn w with ⟨_ | _, _⟩ <;> rfl

/-- How a task ends is settled by how its first part ends, as long as the rest ends the same way
in every world. -/
theorem runIn_bind_fst {t : Task ε α} {f : α → Task ε β} {g : α → Except ε β}
    (h : ∀ a w, ((f a).runIn w).1 = g a) (w : World) :
    ((t >>= f).runIn w).1 = (t.runIn w).1 >>= g := by
  rw [runIn_bind]
  rcases t.runIn w with ⟨_ | a, w'⟩
  · rfl
  · exact h a w'

/-- A task fails in its first part, or in the second after the first. -/
theorem runIn_bind_error {t : Task ε α} {f : α → Task ε β} {w w' : World} {e : ε}
    (h : (t >>= f).runIn w = (.error e, w')) :
    t.runIn w = (.error e, w') ∨
      ∃ a w₁, t.runIn w = (.ok a, w₁) ∧ (f a).runIn w₁ = (.error e, w') := by
  rw [runIn_bind] at h
  rcases ht : t.runIn w with ⟨e' | a, w₁⟩
  · rw [ht] at h
    cases h
    exact .inl rfl
  · rw [ht] at h
    exact .inr ⟨a, w₁, rfl, h⟩

theorem runIn_mapError (f : ε → ε') (t : Task ε α) (w : World) :
    (t.mapError f).runIn w = ((t.runIn w).1.mapError f, (t.runIn w).2) := rfl

theorem runIn_change (op : FileTree → Except ε FileTree) (w : World) :
    (change op).runIn w =
      match op w.tree with
      | .ok t => (.ok (), { w with tree := t })
      | .error e => (.error e, w) := by
  rw [change, runIn_bind, runIn_tree]
  change ((ofExcept (op w.tree) : Task ε FileTree) >>= setTree).runIn w = _
  rw [runIn_bind, runIn_ofExcept]
  cases op w.tree <;> rfl

/-- The last task runs in any case. If it does not fail, the result is that of the first. -/
theorem runIn_followedBy (t : Task ε α) (last : Task ε Unit) (w : World) :
    (t.followedBy last).runIn w =
      match last.runIn (t.runIn w).2 with
      | (.ok (), w') => ((t.runIn w).1, w')
      | (.error e, w') => (.error e, w') := by
  change (last >>= fun _ => ofExcept (t.runIn w).1).runIn (t.runIn w).2 = _
  rw [runIn_bind]
  rcases last.runIn (t.runIn w).2 with ⟨_ | _, _⟩ <;> rfl

section

variable {home q : Location}

/-- A task on files below a top directory leaves the file at a place as it is. -/
def Spares (home q : Location) (task : Task ε α) : Prop :=
  ∀ w : World, w.tree.home = home → FileTree.Keeps q w.tree (task.runIn w).2.tree

theorem spares_of_tree_eq {task : Task ε α} (h : ∀ w, (task.runIn w).2.tree = w.tree) :
    Spares home q task := by
  intro w _
  rw [h w]
  exact .refl q w.tree

theorem spares_pure (a : α) : Spares home q (pure a : Task ε α) :=
  spares_of_tree_eq fun _ => rfl

theorem spares_throw (e : ε) : Spares home q (throw e : Task ε α) :=
  spares_of_tree_eq fun _ => rfl

theorem spares_ofExcept (r : Except ε α) : Spares home q (ofExcept r) :=
  spares_of_tree_eq fun _ => rfl

theorem spares_tree : Spares home q (tree : Task ε FileTree) :=
  spares_of_tree_eq fun _ => rfl

theorem spares_report (e : Event) : Spares home q (report e : Task ε Unit) :=
  spares_of_tree_eq fun _ => rfl

theorem spares_reportAll (es : List Event) : Spares home q (reportAll es : Task ε Unit) :=
  spares_of_tree_eq fun _ => rfl

theorem spares_print (ps : List Printed) : Spares home q (print ps : Task ε Unit) :=
  spares_of_tree_eq fun _ => rfl

theorem Spares.bind {t : Task ε α} {f : α → Task ε β} (ht : Spares home q t)
    (hf : ∀ a, Spares home q (f a)) : Spares home q (t >>= f) := by
  intro w hw
  have hkeeps := ht w hw
  rw [runIn_bind]
  rcases hr : t.runIn w with ⟨e | a, w'⟩
  · rw [hr] at hkeeps
    exact hkeeps
  · rw [hr] at hkeeps
    exact hkeeps.trans (hf a w' (hkeeps.home.trans hw))

theorem Spares.mapError {t : Task ε α} (ht : Spares home q t) (f : ε → ε') :
    Spares home q (t.mapError f) := by
  intro w hw
  rw [runIn_mapError]
  exact ht w hw

theorem Spares.forIn {σ : Type} {xs : List α} {f : α → σ → Task ε (ForInStep σ)}
    (h : ∀ x ∈ xs, ∀ s, Spares home q (f x s)) (s : σ) : Spares home q (forIn xs s f) := by
  induction xs generalizing s with
  | nil => exact spares_pure s
  | cons x xs ih =>
    rw [List.forIn_cons]
    refine (h x List.mem_cons_self s).bind fun next => ?_
    cases next with
    | done s => exact spares_pure s
    | yield s => exact ih (fun y hy => h y (List.mem_cons_of_mem x hy)) s

theorem spares_change {op : FileTree → Except ε FileTree}
    (h : ∀ t t', t.home = home → op t = .ok t' → FileTree.Keeps q t t') :
    Spares home q (change op) := by
  intro w hw
  rw [runIn_change]
  split
  · rename_i t' ht
    exact h w.tree t' hw ht
  · exact .refl q w.tree

theorem spares_changeAlways {op : FileTree → Except ε α × FileTree}
    (h : ∀ t, t.home = home → FileTree.Keeps q t (op t).2) : Spares home q (changeAlways op) :=
  fun w hw => h w.tree hw

end

end Pagewright.Task
