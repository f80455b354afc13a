import Pagewright.Proofs.Number.Bounded
import Pagewright.Proofs.Text.Words
import Pagewright.Settings

namespace Pagewright

variable {line : Text} {limit : Nat}

namespace Bundler

/-- A command line is read as its words, and it has to have one. -/
theorem ofCommandLine_eq_ok_iff {b : Bundler} :
    ofCommandLine line limit = .ok b ↔
      Text.HasWords line (b.program :: b.args) ∧ b.limit = limit := by
  rw [← Text.words_eq_iff, ofCommandLine]
  cases Text.words line with
  | nil => simp
  | cons program args =>
    simp only [Except.ok.injEq, List.cons.injEq]
    constructor
    · rintro rfl
      simp
    · rintro ⟨⟨rfl, rfl⟩, rfl⟩
      rfl

theorem ofCommandLine_space (h : Text.IsSpace line) (limit : Nat) :
    ofCommandLine line limit = .error (.bundle .emptyCommand) := by
  have hwords : Text.words line = [] := Text.words_eq_iff.mpr (.none h)
  simp [ofCommandLine, hwords]

theorem exists_ofCommandLine (h : ¬Text.IsSpace line) (limit : Nat) :
    ∃ b, ofCommandLine line limit = .ok b := by
  cases hwords : Text.words line with
  | nil => exact absurd (Text.hasWords_nil.mp (Text.words_eq_iff.mp hwords)) h
  | cons program args => exact ⟨⟨program, args, limit⟩, by simp [ofCommandLine, hwords]⟩

/-- The parts of a command line are read again whichever blanks they are joined by. -/
theorem ofCommandLine_joined {b : Bundler} {again : Text}
    (h : Text.HasWords line (b.program :: b.args)) (hjoined : Text.Joined (b.program :: b.args) again)
    (limit : Nat) : ofCommandLine again limit = .ok { b with limit } := by
  apply ofCommandLine_eq_ok_iff.mpr
  exact ⟨hjoined.hasWords h.isWord, rfl⟩

end Bundler

namespace Settings

variable {env : Environment} {command : Option Text} {timeout : Option Nat} {n : Nat}

/-- The command line that is taken. A blank one counts when a flag gives it, and not when the
environment does. -/
inductive TakesCommand (env : Environment) : Option Text → Text → Prop where
  | flag (line : Text) : TakesCommand env (some line) line
  | environment {line : Text} (set : env.bundler = some line) (written : ¬Text.IsSpace line) :
    TakesCommand env none line
  | default (unset : ∀ line, env.bundler = some line → Text.IsSpace line) :
    TakesCommand env none Bundler.defaultCommand

/-- The limit that is taken, in seconds. -/
inductive TakesSeconds (env : Environment) : Option Nat → Nat → Prop where
  | flag (n : Nat) : TakesSeconds env (some n) n
  | environment {written : Text} {n : Nat} (set : env.timeout = some written)
    (isCount : Number.IsCount (Text.trim written) n) (bound : n < secondsBound) :
    TakesSeconds env none n
  | default (unset : env.timeout = none) : TakesSeconds env none 120

theorem isAllBlank_iff : Text.isAllBlank line = true ↔ Text.IsSpace line :=
  List.all_eq_true

/-- The command is taken from the first place that gives one. -/
theorem takesCommand_pick (env : Environment) (command : Option Text) :
    TakesCommand env command (pick command env.bundler Bundler.defaultCommand) := by
  cases command with
  | some line => exact .flag line
  | none =>
    cases hset : env.bundler with
    | none => exact .default (by simp [hset])
    | some line =>
      cases hblank : Text.isAllBlank line with
      | true =>
        have hspace : Text.IsSpace line := isAllBlank_iff.mp hblank
        have hpick : pick none (some line) Bundler.defaultCommand = Bundler.defaultCommand := by
          simp [pick, Option.filter, hblank]
        rw [hpick]
        apply TakesCommand.default
        intro l hl
        rw [hset] at hl
        cases hl
        exact hspace
      | false =>
        have hwritten : ¬Text.IsSpace line := by
          rw [← isAllBlank_iff, hblank]
          exact Bool.false_ne_true
        have hpick : pick none (some line) Bundler.defaultCommand = line := by
          simp [pick, Option.filter, hblank]
        rw [hpick]
        exact .environment hset hwritten

theorem TakesCommand.unique {l : Text} (h : TakesCommand env command line)
    (h' : TakesCommand env command l) : l = line := by
  cases h with
  | flag => cases h' with | flag => rfl
  | environment set written =>
    cases h' with
    | environment set' _ => exact Option.some.inj (set'.symm.trans set)
    | default unset => exact absurd (unset line set) written
  | default unset =>
    cases h' with
    | environment set written => exact absurd (unset l set) written
    | default => rfl

theorem takesCommand_iff :
    TakesCommand env command line ↔ line = pick command env.bundler Bundler.defaultCommand := by
  constructor
  · exact (takesCommand_pick env command).unique
  · rintro rfl
    exact takesCommand_pick env command

/-- A limit is taken exactly where the flag or the environment names a good one. -/
theorem seconds_eq_ok_iff : seconds env timeout = .ok n ↔ TakesSeconds env timeout n := by
  constructor
  · intro h
    cases timeout with
    | some m =>
      obtain rfl : m = n := Except.ok.inj h
      exact .flag m
    | none =>
      cases hset : env.timeout with
      | none =>
        simp only [seconds, hset, Except.ok.injEq] at h
        subst h
        exact .default hset
      | some written =>
        simp only [seconds, hset] at h
        cases hread : Number.bounded secondsBound (Text.trim written) with
        | error fault => simp [hread] at h
        | ok m =>
          simp only [hread, Except.ok.injEq] at h
          subst h
          obtain ⟨hcount, hbound⟩ := (Number.bounded_eq_ok_iff (by decide)).mp hread
          exact .environment hset hcount hbound
  · intro h
    cases h with
    | flag => rfl
    | environment set isCount bound =>
      have hpos : 0 < secondsBound := by decide
      have hread := (Number.bounded_eq_ok_iff hpos).mpr ⟨isCount, bound⟩
      simp [seconds, set, hread]
    | default unset => simp [seconds, unset, Bundler.defaultSeconds]

/-- The fault of a limit that cannot be taken or that is zero. -/
def IsLimitFault (f : CommandFailure) : Prop :=
  f = .zeroTimeout ∨ ∃ written fault, f = .badTimeout written fault

theorem seconds_eq_error {f : CommandFailure} (h : seconds env timeout = .error f) :
    IsLimitFault f := by
  unfold seconds at h
  split at h
  · cases h
  · cases h
  · rename_i written _
    cases hread : Number.bounded secondsBound (Text.trim written) with
    | ok m => simp [hread] at h
    | error fault =>
      simp only [hread, Except.error.injEq] at h
      exact .inr ⟨written, fault, h.symm⟩

/-- With a good limit the command line decides. -/
theorem bundler_of_seconds (hseconds : TakesSeconds env timeout n) (hn : n ≠ 0)
    (hcommand : TakesCommand env command line) :
    bundler env command timeout =
      (Bundler.ofCommandLine line (n * 1000)).mapError CommandFailure.failure := by
  rw [takesCommand_iff] at hcommand
  have hseconds := seconds_eq_ok_iff.mpr hseconds
  simp only [bundler, hseconds, ← hcommand, bind, Except.bind, hn, if_false]
  cases Bundler.ofCommandLine line (n * 1000) with
  | ok b => rfl
  | error f => rfl

/-- Without a good limit neither the flag of the command nor anything else in the environment
matters. -/
theorem bundler_of_bad_seconds (h : ∀ n, TakesSeconds env timeout n → n = 0) :
    ∃ f, IsLimitFault f ∧ ∀ env' command', env'.timeout = env.timeout →
      bundler env' command' timeout = .error f := by
  have hsame {env' : Environment} (henv : env'.timeout = env.timeout) :
      seconds env' timeout = seconds env timeout := by
    simp only [seconds, henv]
  cases hseconds : seconds env timeout with
  | error f =>
    refine ⟨f, seconds_eq_error hseconds, ?_⟩
    intro env' command' henv
    rw [bundler, hsame henv, hseconds]
    rfl
  | ok n =>
    obtain rfl := h n (seconds_eq_ok_iff.mp hseconds)
    refine ⟨.zeroTimeout, .inl rfl, ?_⟩
    intro env' command' henv
    rw [bundler, hsame henv, hseconds]
    rfl

theorem exists_good_seconds_or (env : Environment) (timeout : Option Nat) :
    (∃ n, TakesSeconds env timeout n ∧ n ≠ 0) ∨ ∀ n, TakesSeconds env timeout n → n = 0 := by
  by_cases h : ∃ n, TakesSeconds env timeout n ∧ n ≠ 0
  · exact .inl h
  · right
    intro n hn
    by_cases hne : n = 0
    · exact hne
    · exact absurd ⟨n, hn, hne⟩ h

/-- Both settings are taken and are good, or there is no bundler. -/
theorem bundler_eq_ok_iff {b : Bundler} : bundler env command timeout = .ok b ↔
    ∃ line n, TakesCommand env command line ∧ TakesSeconds env timeout n ∧ n ≠ 0 ∧
      Text.HasWords line (b.program :: b.args) ∧ b.limit = n * 1000 := by
  have hmap {r : Except Failure Bundler} : r.mapError CommandFailure.failure = .ok b ↔ r = .ok b := by
    cases r with
    | ok b' =>
      constructor
      · intro h
        cases h
        rfl
      · intro h
        cases h
        rfl
    | error f =>
      constructor
      · intro h
        cases h
      · intro h
        cases h
  constructor
  · intro h
    rcases exists_good_seconds_or env timeout with ⟨n, hn, hne⟩ | hbad
    · have htaken := takesCommand_pick env command
      rw [bundler_of_seconds hn hne htaken, hmap] at h
      obtain ⟨hwords, hlimit⟩ := Bundler.ofCommandLine_eq_ok_iff.mp h
      exact ⟨_, n, htaken, hn, hne, hwords, hlimit⟩
    · obtain ⟨f, -, hf⟩ := bundler_of_bad_seconds hbad
      rw [hf env command rfl] at h
      cases h
  · rintro ⟨line, n, htaken, hn, hne, hwords, hlimit⟩
    rw [bundler_of_seconds hn hne htaken, hmap]
    exact Bundler.ofCommandLine_eq_ok_iff.mpr ⟨hwords, hlimit⟩

/-- Of a setting that a flag gives, the environment has no say. -/
theorem bundler_congr {env' : Environment} (hcommand : command = none → env'.bundler = env.bundler)
    (htimeout : timeout = none → env'.timeout = env.timeout) :
    bundler env' command timeout = bundler env command timeout := by
  have hpick : pick command env'.bundler Bundler.defaultCommand =
      pick command env.bundler Bundler.defaultCommand := by
    cases command with
    | none => rw [hcommand rfl]
    | some line => rfl
  have hseconds : seconds env' timeout = seconds env timeout := by
    cases timeout with
    | none => simp only [seconds, htimeout rfl]
    | some n => rfl
  rw [bundler, bundler, hpick, hseconds]

/-- A command line is taken, one only. The bundler is there exactly when the limit that is taken
is not zero and the command line is not blank; it is made of the words of the line, and reading its
parts again gives them back. A fault of the limit is reported whatever the command is. What a flag
gives does not depend on the environment. -/
theorem bundler_resolves (env : Environment) (command : Option Text) (timeout : Option Nat) :
    ∃ line, (∀ l, TakesCommand env command l ↔ l = line) ∧
      ((∃ b, bundler env command timeout = .ok b) ↔
        (∃ n, TakesSeconds env timeout n ∧ n ≠ 0) ∧ ¬Text.IsSpace line) ∧
      (∀ b, bundler env command timeout = .ok b →
        Text.HasWords line (b.program :: b.args) ∧
        (∃ n, TakesSeconds env timeout n ∧ b.limit = n * 1000) ∧
        ∀ again limit, Text.Joined (b.program :: b.args) again →
          Bundler.ofCommandLine again limit = .ok { b with limit }) ∧
      ((∀ n, TakesSeconds env timeout n → n = 0) →
        ∃ f, IsLimitFault f ∧ ∀ env' command', env'.timeout = env.timeout →
          bundler env' command' timeout = .error f) ∧
      ((∃ n, TakesSeconds env timeout n ∧ n ≠ 0) → Text.IsSpace line →
        bundler env command timeout = .error (.failure (.bundle .emptyCommand))) ∧
      ∀ env' : Environment, (command = none → env'.bundler = env.bundler) →
        (timeout = none → env'.timeout = env.timeout) →
        bundler env' command timeout = bundler env command timeout := by
  have htaken := takesCommand_pick env command
  refine ⟨pick command env.bundler Bundler.defaultCommand, fun l => takesCommand_iff,
    ⟨?_, ?_⟩, ?_, bundler_of_bad_seconds, ?_, fun env' => bundler_congr⟩
  · rintro ⟨b, hb⟩
    obtain ⟨line, n, hline, hn, hne, hwords, -⟩ := bundler_eq_ok_iff.mp hb
    refine ⟨⟨n, hn, hne⟩, ?_⟩
    intro hspace
    rw [← hline.unique htaken] at hwords
    have hnone := Text.words_eq_iff.mpr (.none hspace)
    rw [hwords.words_eq] at hnone
    cases hnone
  · rintro ⟨⟨n, hn, hne⟩, hline⟩
    obtain ⟨b, hb⟩ := Bundler.exists_ofCommandLine hline (n * 1000)
    rw [bundler_of_seconds hn hne htaken, hb]
    exact ⟨b, rfl⟩
  · intro b hb
    obtain ⟨line, n, hline, hn, -, hwords, hlimit⟩ := bundler_eq_ok_iff.mp hb
    obtain rfl := htaken.unique hline
    refine ⟨hwords, ⟨n, hn, hlimit⟩, ?_⟩
    intro again limit hjoined
    exact Bundler.ofCommandLine_joined hwords hjoined limit
  · rintro ⟨n, hn, hne⟩ hspace
    rw [bundler_of_seconds hn hne htaken, Bundler.ofCommandLine_space hspace]
    rfl

end Settings
end Pagewright
