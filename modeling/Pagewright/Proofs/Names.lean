import Pagewright.Proofs.Extraction
import Pagewright.Proofs.Grammar.Heads
import Pagewright.Proofs.Source

namespace Pagewright

open Syntax

structure Route.IsNamed (r : Route) : Prop where
  name : Identifier.IsWhole r.name
  params : ∀ p ∈ r.params, Identifier.IsWhole p.name
  distinct : (r.params.map (·.name)).Nodup

namespace Source

variable {path text : Text} {s : Source}

theorem route_named [CharacterNames] (hs : ofText path text = .ok s) {d : Definition}
    (hd : .function d.span d.head d.body ∈ s.body) : (d.route s).IsNamed := by
  have hhead := parse_named (parse_text hs) hd
  have hparams := route_params s d
  refine ⟨hhead.name, fun p hp => ?_, hparams ▸ hhead.distinct⟩
  have hname : p.name ∈ d.head.params.single.map (·.name) :=
    hparams ▸ List.mem_map_of_mem hp
  obtain ⟨q, hq, hqname⟩ := List.mem_map.mp hname
  exact hqname ▸ hhead.params q hq

theorem LastFunction.mem {name : Text} {d : Definition} (h : s.LastFunction name d) :
    .function d.span d.head d.body ∈ s.body := by
  obtain ⟨-, before, after, hbody, -⟩ := h
  simp [hbody]

end Source

/-- Whatever is extracted from a parsed file has well-formed names. -/
theorem Extraction.route_named [CharacterNames] {path text : Text} {s : Source}
    (hs : Source.ofText path text = .ok s)
    {names : List Text} {e : Extraction} (h : ofSource s names = .ok e) {r : Route}
    (hr : r ∈ e.routes) : r.IsNamed := by
  have ha := h ▸ answers_ofSource s names
  cases ha with
  | routes hnames hne hds =>
    obtain ⟨d, hd, rfl⟩ := List.mem_map.mp hr
    refine Source.route_named hs ?_
    clear hne hds h hr
    induction hnames with
    | nil => cases hd
    | cons hlast _ ih => exact (List.mem_cons.mp hd).elim (fun h => h ▸ hlast.mem) ih

def Source.echo (name param : Text) : Source :=
  let n := Text.size name
  let m := Text.size param
  { path := "src/App.py"
    text := "def " ++ name ++ "(" ++ param ++ ": str):\n    return " ++ param ++ "\n"
    body := [.function ⟨0, 24 + n + m + m⟩
      ⟨false, name, ⟨[], [⟨⟨5 + n, 10 + n + m⟩, param, some (.name ⟨7 + n + m, 10 + n + m⟩ "str"),
        none⟩], none, [], none⟩, [], none, []⟩
      [.return ⟨17 + n + m, 24 + n + m + m⟩
        (some (.name ⟨24 + n + m, 24 + n + m + m⟩ param))]] }

def Route.echo (name param : Text) : Route :=
  ⟨name, [⟨param, some "str", some .string, none⟩], none, none,
    ["    return \x7b\"response\": ".toList ++ param ++ "\x7d\n".toList]⟩

end Pagewright
