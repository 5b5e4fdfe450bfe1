import EvmFlow.Command.Outcome
import EvmFlow.Proofs.DisplaySettings
import EvmFlow.Proofs.Termination

/-!
# Exit codes

The exit code of a command says how far it came. It is 1 when the action, the
settings, the source and the text of the code are all in order
(`Command.Ready`) and the walk over the code ends in a violation. It is 0 when
the help or the version is asked for, or the walk ends in a report. Otherwise
something is not in order; what it is first (`Command.FailsWith`) decides the
one line that is printed, and the exit code is 2.

The format and the log level do not take part in this. Hence commands that
differ only in them (`Command.ShownApart`) have the same exit code.
-/

namespace EvmFlow.Command

variable {context context' : Context} {arguments arguments' : List String} {settings : Settings}
  {code : Code} {f : Failure}

/-- Where the settings of a command come from. -/
abbrev settingSources (context : Context) (arguments : List String) : Settings.Sources :=
  ⟨arguments, context.environment, fun _ => none⟩

/-- The text of a source, none if it cannot be read. -/
def sourceText? (context : Context) : Source → Option String
  | .hex text => some text
  | .file path => (context.read path).map fun bytes => String.ofList (Text.Utf8.decode bytes)

/-- The walk over the code that the settings ask for. -/
def walkUnder (settings : Settings) (code : Code) : Walk :=
  ⟨.ofRules (.ofHardfork settings.hardfork), code, 1024, settings.strictEnd⟩

/-- The exit code for the result of a walk. -/
def verdictCode : Except Violation Report → Nat
  | .ok _ => 0
  | .error _ => 1

/-- Code is to be validated, and everything needed for that is there. -/
structure Ready (context : Context) (arguments : List String) (settings : Settings) (code : Code) :
    Prop where
  settings : Settings.resolve (settingSources context arguments) = .ok settings
  code : ∃ source text, action arguments = .ok (.validate source) ∧
    sourceText? context source = some text ∧ Code.ofHex? text = some code

/-- What fails first. -/
inductive FailsWith (context : Context) (arguments : List String) : Failure → Prop
  /-- It is not known what is asked for. -/
  | misuse {m : Misuse} : action arguments = .error m → FailsWith context arguments (.misuse m)
  /-- Code is to be validated, but there are no settings. -/
  | settings {source : Source} {f : Settings.Failure} : action arguments = .ok (.validate source) →
      Settings.resolve (settingSources context arguments) = .error f →
      FailsWith context arguments (.settings f)
  /-- There are settings, but the file cannot be read. -/
  | unreadable {path : String} {settings : Settings} :
      action arguments = .ok (.validate (.file path)) →
      Settings.resolve (settingSources context arguments) = .ok settings →
      context.read path = none → FailsWith context arguments (.unreadable path)
  /-- There is a text, but it writes no code. -/
  | malformedCode {source : Source} {settings : Settings} {text : String} :
      action arguments = .ok (.validate source) →
      Settings.resolve (settingSources context arguments) = .ok settings →
      sourceText? context source = some text → Code.ofHex? text = none →
      FailsWith context arguments .malformedCode

/-- Commands that differ only in what they set to be shown, where both show it
    in a known format and with a known log level. -/
structure ShownApart (context context' : Context) (arguments arguments' : List String) : Prop where
  known : Settings.ShownKnown (settingSources context arguments)
  known' : Settings.ShownKnown (settingSources context' arguments')
  arguments : DisplayVariant arguments arguments'
  environment : ∀ key : Settings.Key, key.isDisplay = false →
    context'.environment key.variableName = context.environment key.variableName
  read : context'.read = context.read

/-! ## How far a command comes -/

section Progress

variable {source : Source} {text : String}

theorem load_of_sourceText? (h : sourceText? context source = some text) :
    load context source = load.ofText text := by
  cases source with
  | hex t =>
    cases h
    rfl
  | file path =>
    obtain ⟨bytes, hread, rfl⟩ := Option.map_eq_some_iff.1 h
    rw [load, hread]

/-- A file that holds an encoded text gives that text. -/
theorem sourceText?_file {path : String} (h : context.read path = some text.toUTF8.data.toList) :
    sourceText? context (.file path) = some text := by
  rw [sourceText?, h, Option.map_some, Text.Utf8.decode_encoded, String.ofList_toList]

theorem source_of_action (h : action arguments = .ok (.validate source)) :
    Command.source arguments = .ok source := by
  simp only [action] at h
  split at h
  · cases h
  · split at h
    · cases h
    · split at h
      · cases h
      · cases hsource : Command.source arguments with
        | error m =>
          rw [hsource] at h
          cases h
        | ok s =>
          rw [hsource] at h
          cases h
          rfl

/-- A command that lacks nothing validates the code. -/
theorem run_of_ready (h : Ready context arguments settings code) :
    run context arguments = validate settings code := by
  obtain ⟨hsettings, source, text, haction, htext, hcode⟩ := h
  simp only [run, attempt, haction, hsettings, load_of_sourceText? htext, load.ofText, hcode]

/-- What fails first decides the outcome. -/
theorem run_of_failsWith (h : FailsWith context arguments f) :
    run context arguments = .ofFailure f := by
  cases h with
  | misuse haction => simp only [run, attempt, haction]
  | settings haction hsettings => simp only [run, attempt, haction, hsettings]
  | unreadable haction hsettings hread =>
    simp only [run, attempt, haction, hsettings, load, hread]
  | malformedCode haction hsettings htext hcode =>
    simp only [run, attempt, haction, hsettings, load_of_sourceText? htext, load.ofText, hcode]

theorem exitCode_of_display
    (h : action arguments = .ok .showHelp ∨ action arguments = .ok .showVersion) :
    (run context arguments).exitCode = 0 := by
  rcases h with haction | haction <;> simp only [run, attempt, haction]

/-- A command that lacks nothing is a walk over the code. -/
theorem exitCode_of_ready (h : Ready context arguments settings code) :
    (run context arguments).exitCode = verdictCode (walkUnder settings code).report := by
  have hwalk : (Analysis.analyze (.ofHardfork settings.hardfork) settings.strictEnd code).result =
      (walkUnder settings code).report := rfl
  rw [run_of_ready h, validate, hwalk]
  match (walkUnder settings code).report with
  | .ok r => rfl
  | .error v => rfl

/-- With settings, the code is there or something about its source fails. -/
theorem ready_or_fails_of_settings (haction : action arguments = .ok (.validate source))
    (hsettings : Settings.resolve (settingSources context arguments) = .ok settings) :
    (∃ code, Ready context arguments settings code) ∨ ∃ f, FailsWith context arguments f := by
  cases htext : sourceText? context source with
  | none =>
    cases source with
    | hex text => cases htext
    | file path =>
      exact .inr ⟨_, .unreadable haction hsettings (Option.map_eq_none_iff.1 htext)⟩
  | some text =>
    cases hcode : Code.ofHex? text with
    | none => exact .inr ⟨_, .malformedCode haction hsettings htext hcode⟩
    | some code => exact .inl ⟨code, hsettings, source, text, haction, htext, hcode⟩

/-- A command displays something, or lacks nothing, or fails. -/
theorem displays_or_ready_or_fails (context : Context) (arguments : List String) :
    (action arguments = .ok .showHelp ∨ action arguments = .ok .showVersion) ∨
      (∃ settings code, Ready context arguments settings code) ∨
      ∃ f, FailsWith context arguments f := by
  match haction : action arguments with
  | .error m => exact .inr (.inr ⟨_, .misuse haction⟩)
  | .ok .showHelp => exact .inl (.inl rfl)
  | .ok .showVersion => exact .inl (.inr rfl)
  | .ok (.validate source) =>
    cases hsettings : Settings.resolve (settingSources context arguments) with
    | error f => exact .inr (.inr ⟨_, .settings haction hsettings⟩)
    | ok settings =>
      rcases ready_or_fails_of_settings haction hsettings with ⟨code, h⟩ | h
      · exact .inr (.inl ⟨settings, code, h⟩)
      · exact .inr (.inr h)

end Progress

/-! ## What is shown does not matter -/

namespace ShownApart

theorem action_eq (h : ShownApart context context' arguments arguments') :
    action arguments' = action arguments := h.arguments.action_eq

/-- The settings are the same, as far as they count in judging code. -/
theorem map_judged_resolve {source : Source} (h : ShownApart context context' arguments arguments')
    (haction : action arguments = .ok (.validate source)) :
    (Settings.resolve (settingSources context' arguments')).map Settings.judged =
      (Settings.resolve (settingSources context arguments)).map Settings.judged := by
  obtain ⟨found, hfound, -⟩ := of_source_eq_ok (source_of_action haction)
  exact Settings.map_judged_resolve
    ⟨h.arguments.kept_eq hfound, h.environment, fun _ _ => rfl⟩ h.known h.known'

theorem exists_settings {source : Source} (h : ShownApart context context' arguments arguments')
    (haction : action arguments = .ok (.validate source))
    (hsettings : Settings.resolve (settingSources context arguments) = .ok settings) :
    ∃ settings', Settings.resolve (settingSources context' arguments') = .ok settings' ∧
      settings'.judged = settings.judged := by
  rcases of_map_eq_map (h.map_judged_resolve haction) with
    ⟨f, -, herror⟩ | ⟨settings', kept, hsettings', hkept, hjudged⟩
  · cases hsettings.symm.trans herror
  · cases hsettings.symm.trans hkept
    exact ⟨settings', hsettings', hjudged⟩

theorem sourceText?_eq (h : ShownApart context context' arguments arguments') (source : Source) :
    sourceText? context' source = sourceText? context source := by
  cases source with
  | hex text => rfl
  | file path => rw [sourceText?, sourceText?, h.read]

/-- The same code is walked over in the same way. -/
theorem ready (h : ShownApart context context' arguments arguments')
    (hready : Ready context arguments settings code) :
    ∃ settings', Ready context' arguments' settings' code ∧
      walkUnder settings' code = walkUnder settings code := by
  obtain ⟨hsettings, source, text, haction, htext, hcode⟩ := hready
  obtain ⟨settings', hsettings', hjudged⟩ := h.exists_settings haction hsettings
  obtain ⟨hhardfork, hstrict⟩ := Prod.mk.inj hjudged
  refine ⟨settings', ⟨hsettings', source, text, ?_, ?_, hcode⟩, ?_⟩
  · rw [h.action_eq, haction]
  · rw [h.sourceText?_eq, htext]
  · rw [walkUnder, walkUnder, hhardfork, hstrict]

/-- The same fails. -/
theorem failsWith (h : ShownApart context context' arguments arguments')
    (hfails : FailsWith context arguments f) : FailsWith context' arguments' f := by
  cases hfails with
  | misuse haction => exact .misuse (h.action_eq.trans haction)
  | settings haction hsettings =>
    rcases of_map_eq_map (h.map_judged_resolve haction) with
      ⟨f', hsettings', herror⟩ | ⟨settings', kept, -, hkept, -⟩
    · cases hsettings.symm.trans herror
      exact .settings (h.action_eq.trans haction) hsettings'
    · cases hsettings.symm.trans hkept
  | unreadable haction hsettings hread =>
    obtain ⟨settings', hsettings', -⟩ := h.exists_settings haction hsettings
    exact .unreadable (h.action_eq.trans haction) hsettings' (h.read ▸ hread)
  | malformedCode haction hsettings htext hcode =>
    obtain ⟨settings', hsettings', -⟩ := h.exists_settings haction hsettings
    exact .malformedCode (h.action_eq.trans haction) hsettings'
      ((h.sourceText?_eq _).trans htext) hcode

/-- The exit code is the same. -/
theorem exitCode_eq (h : ShownApart context context' arguments arguments') :
    (run context' arguments').exitCode = (run context arguments).exitCode := by
  rcases displays_or_ready_or_fails context arguments with
    hdisplay | ⟨settings, code, hready⟩ | ⟨f, hfails⟩
  · rw [exitCode_of_display hdisplay, exitCode_of_display (h.action_eq ▸ hdisplay)]
  · obtain ⟨settings', hready', hwalk⟩ := h.ready hready
    rw [exitCode_of_ready hready, exitCode_of_ready hready', hwalk]
  · rw [run_of_failsWith hfails, run_of_failsWith (h.failsWith hfails)]

end ShownApart

/-! ## The meaning of the exit code -/

/-- What the exit code of a command stands for. -/
structure Faithful (context : Context) (arguments : List String) : Prop where
  /-- It is 1 when the code is rejected. -/
  rejected : (run context arguments).exitCode = 1 ↔
    ∃ settings code v, Ready context arguments settings code ∧
      (walkUnder settings code).report = .error v
  /-- It is 0 when something is displayed or the code is accepted. -/
  accepted : (run context arguments).exitCode = 0 ↔
    (action arguments = .ok .showHelp ∨ action arguments = .ok .showVersion) ∨
      ∃ settings code r, Ready context arguments settings code ∧
        (walkUnder settings code).report = .ok r
  /-- Otherwise it is 2, and something failed. -/
  failed : (run context arguments).exitCode ≠ 1 → (run context arguments).exitCode ≠ 0 →
    (run context arguments).exitCode = 2 ∧ ∃ f, FailsWith context arguments f
  /-- What fails first decides the one line of the output. -/
  line : ∀ f, FailsWith context arguments f →
    (run context arguments).exitCode = 2 ∧
      (run context arguments).output = ["error: " ++ f.message]

/-- The four ways in which a command ends. -/
theorem run_cases (context : Context) (arguments : List String) :
    ((run context arguments).exitCode = 0 ∧
      (action arguments = .ok .showHelp ∨ action arguments = .ok .showVersion)) ∨
    ((run context arguments).exitCode = 0 ∧ ∃ settings code r,
      Ready context arguments settings code ∧ (walkUnder settings code).report = .ok r) ∨
    ((run context arguments).exitCode = 1 ∧ ∃ settings code v,
      Ready context arguments settings code ∧ (walkUnder settings code).report = .error v) ∨
    ((run context arguments).exitCode = 2 ∧ ∃ f, FailsWith context arguments f) := by
  rcases displays_or_ready_or_fails context arguments with
    hdisplay | ⟨settings, code, hready⟩ | ⟨f, hfails⟩
  · exact .inl ⟨exitCode_of_display hdisplay, hdisplay⟩
  · have hcode := exitCode_of_ready hready
    cases hreport : (walkUnder settings code).report with
    | ok r =>
      rw [hreport] at hcode
      exact .inr (.inl ⟨hcode, settings, code, r, hready, hreport⟩)
    | error v =>
      rw [hreport] at hcode
      exact .inr (.inr (.inl ⟨hcode, settings, code, v, hready, hreport⟩))
  · have hcode : (run context arguments).exitCode = 2 := by rw [run_of_failsWith hfails]; rfl
    exact .inr (.inr (.inr ⟨hcode, f, hfails⟩))

/-- The exit code of every command says how far it came and what the walk over
    the code gave, and what is shown makes no difference to it. -/
theorem exitCode_faithful (context : Context) (arguments : List String) :
    Faithful context arguments ∧
      ∀ context' arguments', ShownApart context context' arguments arguments' →
        (run context' arguments').exitCode = (run context arguments).exitCode := by
  refine ⟨⟨⟨?_, ?_⟩, ⟨?_, ?_⟩, ?_, ?_⟩, fun _ _ h => h.exitCode_eq⟩
  · intro hcode
    rcases run_cases context arguments with h | h | h | h
    · cases hcode.symm.trans h.1
    · cases hcode.symm.trans h.1
    · exact h.2
    · cases hcode.symm.trans h.1
  · rintro ⟨settings, code, v, hready, hreport⟩
    rw [exitCode_of_ready hready, hreport, verdictCode]
  · intro hcode
    rcases run_cases context arguments with h | h | h | h
    · exact .inl h.2
    · exact .inr h.2
    · cases hcode.symm.trans h.1
    · cases hcode.symm.trans h.1
  · rintro (hdisplay | ⟨settings, code, r, hready, hreport⟩)
    · exact exitCode_of_display hdisplay
    · rw [exitCode_of_ready hready, hreport, verdictCode]
  · intro hone hzero
    rcases run_cases context arguments with h | h | h | h
    · exact absurd h.1 hzero
    · exact absurd h.1 hzero
    · exact absurd h.1 hone
    · exact h
  · intro f hfails
    rw [run_of_failsWith hfails]
    exact ⟨rfl, rfl⟩

/-- Surroundings with a single file, which holds a jump to the end of the code,
    and where the log level is set. -/
def jumpFile (level : String) : Context where
  environment name := if name = Settings.Key.logLevel.variableName then some level else none
  read path := if path = "jump.hex" then some "0x600356\n".toUTF8.data.toList else none

/-- Asks for the jump in the file. -/
def jumpLine : List String := ["--fork", "london", "-i", "jump.hex"]

/-- The same, in another format and with a log level of its own. -/
def shownJumpLine : List String :=
  ["--format", "json", "--fork", "london", "--log-level=debug", "-i", "jump.hex"]

theorem displayVariant_jumpLine : DisplayVariant jumpLine shownJumpLine := by
  have hformat : Settings.SetsDisplay ["--format", "json"] :=
    .option (by decide : _ = some Settings.Key.format) rfl (by decide)
  have hlevel : Settings.SetsDisplay ["--log-level" ++ ("=" ++ "debug")] :=
    .assignment (by decide : _ = some Settings.Key.logLevel) rfl (by decide)
  exact .right hformat (.pair (.inr (by decide))
    (.right hlevel (.pair (.inl (by decide)) (.same []))))

theorem shownApart_jumpLine :
    ShownApart (jumpFile "info") (jumpFile "trace") jumpLine shownJumpLine where
  known given h := by
    cases h
    decide +kernel
  known' given h := by
    cases h
    decide +kernel
  arguments := displayVariant_jumpLine
  environment key hkey :=
    match key, hkey with
    | .hardfork, _ | .strictEnd, _ => rfl
  read := rfl

/-- The jump in the file is rejected, however that is shown. -/
theorem exitCode_jumpLine :
    ShownApart (jumpFile "info") (jumpFile "trace") jumpLine shownJumpLine ∧
      (run (jumpFile "info") jumpLine).exitCode = 1 ∧
      (run (jumpFile "trace") shownJumpLine).exitCode = 1 := by
  obtain ⟨hfaithful, hshown⟩ := exitCode_faithful (jumpFile "info") jumpLine
  have hready : Ready (jumpFile "info") jumpLine ⟨.london, .info, .text, false⟩
      (.ofBytes #[0x60, 0x03, 0x56]) :=
    ⟨rfl, .file "jump.hex", "0x600356\n", rfl, sourceText?_file rfl, rfl⟩
  have hreport : (walkUnder ⟨.london, .info, .text, false⟩ (.ofBytes #[0x60, 0x03, 0x56])).report =
      .error (.invalidJumpDestination 2 3) :=
    Walk.report_of_run_eq_error (Walk.run_eq_error 10 (by decide +kernel))
  have hone := hfaithful.rejected.2 ⟨_, _, _, hready, hreport⟩
  exact ⟨shownApart_jumpLine, hone, (hshown _ _ shownApart_jumpLine).trans hone⟩

end EvmFlow.Command
