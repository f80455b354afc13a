import Pagewright.Proofs.Text.Order
import Pagewright.Route.Imports

namespace Pagewright.Imports

open Syntax

/-- An import statement apart from where it stands: its form and its text. -/
def statement? (source : Source) : Stmt → Option (Stmt × Text)
  | .importNames span names => some (.importNames ⟨0, 0⟩ names, source.slice span)
  | .importFrom span module level names =>
    some (.importFrom ⟨0, 0⟩ module level names, source.slice span)
  | _ => none

def statements (source : Source) : List (Stmt × Text) :=
  source.body.filterMap (statement? source)

def plainText? : Stmt × Text → Option Text
  | (.importNames _ names, text) =>
    if names.any (fun a => isLocal a.name) then none else some (Text.trim text)
  | _ => none

def fromText? : Stmt × Text → Option Text
  | (.importFrom _ module _ _, text) =>
    if isRelative (Text.trim text) || isLocal (module.getD []) then none else some (Text.trim text)
  | _ => none

variable {source source' : Source}

theorem plain?_eq (s : Stmt) : plain? source s = (statement? source s).bind plainText? := by
  cases s <;> rfl

theorem from?_eq (s : Stmt) : from? source s = (statement? source s).bind fromText? := by
  cases s <;> rfl

theorem forwarded_eq (source : Source) :
    forwarded source = Text.sortedSet ((statements source).filterMap plainText?)
      ++ Text.sortedSet ((statements source).filterMap fromText?) := by
  unfold forwarded statements
  rw [List.filterMap_filterMap, List.filterMap_filterMap, funext (@plain?_eq source),
    funext (@from?_eq source)]

/-- What is picked from the members of a list, by membership. -/
theorem mem_filterMap_congr {α β : Type} {f : α → Option β} {xs ys : List α}
    (h : ∀ x, x ∈ xs ↔ x ∈ ys) (y : β) : y ∈ xs.filterMap f ↔ y ∈ ys.filterMap f := by
  simp only [List.mem_filterMap, h]

/-- The same import statements at the top level, however they are ordered, repeated and mixed with
others, are forwarded alike. -/
theorem forwarded_congr (h : ∀ i, i ∈ statements source ↔ i ∈ statements source') :
    forwarded source = forwarded source' := by
  rw [forwarded_eq, forwarded_eq, Text.sortedSet_congr (mem_filterMap_congr h),
    Text.sortedSet_congr (mem_filterMap_congr h)]

/-- A plain import is forwarded if none of its modules is local. -/
theorem mem_plain {t : Text} :
    t ∈ source.body.filterMap (plain? source) ↔ ∃ span names,
      .importNames span names ∈ source.body ∧ (∀ a ∈ names, isLocal a.name = false) ∧
      t = Text.trim (source.slice span) := by
  rw [List.mem_filterMap]
  constructor
  · rintro ⟨s, hs, h⟩
    unfold plain? at h
    split at h
    · rename_i span names
      split at h
      · cases h
      · rename_i hnames
        exact ⟨span, names, hs, by simpa using hnames, (Option.some.inj h).symm⟩
    · cases h
  · rintro ⟨span, names, hs, hnames, rfl⟩
    exact ⟨_, hs, if_neg (by simpa using hnames)⟩

/-- A `from` import is forwarded if its text is not relative and its module is not local. -/
theorem mem_from {t : Text} :
    t ∈ source.body.filterMap (from? source) ↔ ∃ span module level names,
      .importFrom span module level names ∈ source.body ∧ isRelative t = false ∧
      isLocal (module.getD []) = false ∧ t = Text.trim (source.slice span) := by
  rw [List.mem_filterMap]
  constructor
  · rintro ⟨s, hs, h⟩
    unfold from? at h
    split at h
    · rename_i span module level names
      dsimp only at h
      split at h
      · cases h
      · rename_i hlocal
        obtain rfl := Option.some.inj h
        simp only [Bool.or_eq_true, not_or, Bool.not_eq_true] at hlocal
        exact ⟨span, module, level, names, hs, hlocal.1, hlocal.2, rfl⟩
    · cases h
  · rintro ⟨span, module, level, names, hs, hrelative, hlocal, rfl⟩
    exact ⟨_, hs, if_neg (by simp [hrelative, hlocal])⟩

/-- What is forwarded is a block of plain imports and a block of `from` imports, each in strict
order of the bytes. Nothing but the set of the import statements at the top level counts: files in
which these are ordered, repeated or mixed with others in different ways forward the same. -/
theorem forwarded_canonical (source : Source) :
    (∃ plain froms, forwarded source = plain ++ froms ∧
      (∀ t ∈ plain, ∃ span names,
        .importNames span names ∈ source.body ∧ t = Text.trim (source.slice span)) ∧
      (∀ t ∈ froms, ∃ span module level names,
        .importFrom span module level names ∈ source.body ∧ t = Text.trim (source.slice span)) ∧
      plain.Pairwise (fun t u => (Text.encode t).data.toList < (Text.encode u).data.toList) ∧
      froms.Pairwise (fun t u => (Text.encode t).data.toList < (Text.encode u).data.toList)) ∧
    ∀ source' : Source, (∀ i, i ∈ statements source ↔ i ∈ statements source') →
      forwarded source = forwarded source' := by
  have hstrict {ts : List Text} (h : Text.IsStrict ts) :
      ts.Pairwise fun t u => (Text.encode t).data.toList < (Text.encode u).data.toList :=
    h.imp Text.before_iff.mp
  refine ⟨⟨_, _, rfl, fun t ht => ?_, fun t ht => ?_, hstrict (Text.isStrict_sortedSet _),
    hstrict (Text.isStrict_sortedSet _)⟩, fun source' h => forwarded_congr h⟩
  · obtain ⟨span, names, hs, -, ht⟩ := mem_plain.mp (Text.mem_sortedSet.mp ht)
    exact ⟨span, names, hs, ht⟩
  · obtain ⟨span, module, level, names, hs, -, -, ht⟩ := mem_from.mp (Text.mem_sortedSet.mp ht)
    exact ⟨span, module, level, names, hs, ht⟩

/-- A file with imports in no order, one of them twice. -/
def unsorted : Source where
  path := "src/App.py"
  text := "import b\nfrom c import d\nimport a\nimport b\n"
  body := [.importNames ⟨0, 8⟩ [⟨"b", none⟩], .importFrom ⟨9, 24⟩ (some "c") 0 [⟨"d", none⟩],
    .importNames ⟨25, 33⟩ [⟨"a", none⟩], .importNames ⟨34, 42⟩ [⟨"b", none⟩]]

/-- A file with the same imports in another order, and something else between them. -/
def spread : Source where
  path := "src/Other.py"
  text := "import a\npass\nimport b\nfrom c import d\n"
  body := [.importNames ⟨0, 8⟩ [⟨"a", none⟩], .pass ⟨9, 13⟩, .importNames ⟨14, 22⟩ [⟨"b", none⟩],
    .importFrom ⟨23, 38⟩ (some "c") 0 [⟨"d", none⟩]]

theorem forwarded_canonical_unsorted :
    Source.ofText "src/App.py" unsorted.text = .ok unsorted ∧
    Source.ofText "src/Other.py" spread.text = .ok spread ∧
    (∀ i, i ∈ statements unsorted ↔ i ∈ statements spread) ∧
    forwarded unsorted = forwarded spread := by
  have hsame : ∀ i, i ∈ statements unsorted ↔ i ∈ statements spread := by
    obtain ⟨a, b, c, hunsorted, hspread⟩ : ∃ a b c,
        statements unsorted = [b, c, a, b] ∧ statements spread = [a, b, c] :=
      ⟨(.importNames ⟨0, 0⟩ [⟨"a", none⟩], "import a".toList),
        (.importNames ⟨0, 0⟩ [⟨"b", none⟩], "import b".toList),
        (.importFrom ⟨0, 0⟩ (some "c") 0 [⟨"d", none⟩], "from c import d".toList), by rfl, by rfl⟩
    intro i
    rw [hunsorted, hspread]
    simp only [List.mem_cons, List.not_mem_nil, or_false]
    tauto
  exact ⟨by rfl, by rfl, hsame, (forwarded_canonical unsorted).2 spread hsame⟩

end Pagewright.Imports
