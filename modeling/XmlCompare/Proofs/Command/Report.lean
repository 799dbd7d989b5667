import XmlCompare.Command.Run
import XmlCompare.File.Directory
import XmlCompare.Proofs.Report.Outcome

/-!
# The report command

The report command comes to a verdict by itself: it passes over blank control texts as `verify`
does, but indexes any other control text before it looks at the test text. So it tells the verdict
of `verify` except where the control text is malformed and the test text is blank. There `verify`
finds nothing to compare, and the command reports the control text.
-/

set_option autoImplicit false

namespace XmlCompare

variable {Store : Type}

/-- What a run that tells a verdict leaves behind, with all files as they were: with the status zero
it says that all is valid; with one it lists what every finding says, a line for each; and with two
it says what is malformed. -/
def Execution.ofVerdict (s : Store) : Verdict → Execution Store
  | .valid => ⟨0, "valid\n", "", s⟩
  | .invalid findings => ⟨1, String.join (findings.map fun f => f.text ++ "\n"), "", s⟩
  | .malformed cause => ⟨2, "", "Error: " ++ cause.message ++ "\n", s⟩

namespace Command

/-- A name that does not look like a switch is an operand. -/
theorem readItems_operand (known : List Switch) {name : String} (rest : List String)
    (h : looksLikeSwitch name = false) :
    readItems known (name :: rest) = .item (.operand name) (readItems known rest) := by
  unfold looksLikeSwitch at h
  rw [readItems]
  split at h
  · cases h
  · rename_i hname
    split
    · rename_i heq
      exact absurd heq (hname _ _)
    · rename_i heq
      exact absurd heq (hname _ _)
    · rename_i heq
      exact absurd heq (hname _ _)
    · rfl

/-- Two names that do not look like switches are the operands of a command that takes two. -/
theorem collect_operands (known : List Switch) {first second : String}
    (hfirst : looksLikeSwitch first = false) (hsecond : looksLikeSwitch second = false) :
    collect 2 ⟨[], []⟩ (readItems known [first, second]) = .ok (some ⟨[first, second], []⟩) := by
  rw [readItems_operand known [second] hfirst, readItems_operand known [] hsecond]
  rfl

/-- What is printed of a verdict, without blocks, is what tells it. -/
theorem execute_runReport [FileStore Store] (s : Store) (control test : String) :
    (runReport control test false).execute s = .ofVerdict s (reportVerdict control test) := by
  unfold runReport
  cases reportVerdict control test with
  | valid => rfl
  | malformed cause => rfl
  | invalid findings =>
    have hlines : printLines (showFindings control findings false) =
        String.join (findings.map fun f => f.text ++ "\n") := by
      rw [showFindings, if_neg Bool.false_ne_true, printLines, List.map_map]
      rfl
    simp only [hlines]
    rfl

variable {control test : String}

/-- On a blank control text a report is the verdict on both texts. -/
theorem reportVerdict_of_blank (h : Text.isBlankText control = true) :
    reportVerdict control test = verify control test :=
  if_pos h

/-- The command indexes a control text before it looks at the test text. -/
theorem reportVerdict_of_parse_error {error : ParseError}
    (hblank : Text.isBlankText control = false) (h : Document.parse control = .error error) :
    reportVerdict control test = .malformed ⟨.control, error⟩ := by
  simp [reportVerdict, hblank, Snapshot.ofText, Document.build_of_parse_error h, Except.map]

/-- With a control text that is a document, a blank test text is valid to the command as well. -/
theorem reportVerdict_of_parse {c : Document} (h : Document.parse control = .ok c) :
    reportVerdict control test = verify control test := by
  have hblank := Document.isBlankText_of_parse h
  obtain ⟨-, -, index, hbuild, -⟩ := Document.index_of_parse h
  have hsnapshot : Snapshot.ofText control = .ok ⟨control, index⟩ :=
    Snapshot.ofText_eq_ok_iff.mpr ⟨hbuild, rfl⟩
  rw [reportVerdict, if_neg (by simp [hblank]), hsnapshot]
  show (Snapshot.mk control index).verify Selector.standard test = verify control test
  cases htest : Text.isBlankText test with
  | true =>
    have heither : (Text.isBlankText control || Text.isBlankText test) = true := by
      rw [htest, Bool.or_true]
    obtain ⟨hsame, hvalid⟩ := same_of_blank heither
    rw [hvalid, Snapshot.verify_eq, hsame]
    rfl
  | false =>
    have hneither : (Text.isBlankText control || Text.isBlankText test) = false := by
      rw [hblank, htest, Bool.or_false]
    obtain ⟨index', hbuild', hverify⟩ := exists_snapshot hneither h
    obtain rfl : index = index' := Except.ok.inj (hbuild.symm.trans hbuild')
    exact hverify.symm

end Command

/-- The command line that reports on two files asks for that, if their names do not look like
switches. -/
theorem Request.ofArguments_report {control test : String}
    (hcontrol : Command.looksLikeSwitch control = false)
    (htest : Command.looksLikeSwitch test = false) :
    ofArguments ["report", control, test] = .ok (.command (.report control test false)) := by
  have hname : Command.looksLikeSwitch "report" = false := by decide
  unfold ofArguments
  rw [List.takeWhile_cons_of_neg (by simp [hname]), List.dropWhile_cons_of_neg (by simp [hname])]
  refine bind_eq_ok_iff.mpr ⟨none, rfl, ?_⟩
  simp only [List.contains_nil, Bool.false_eq_true, if_false]
  exact bind_eq_ok_iff.mpr ⟨_, Command.collect_operands _ hcontrol htest, rfl⟩

variable [FileStore Store]

/-- A run of the command on two texts tells the verdict of the command. -/
theorem Request.execute_report {s : Store} {controlName testName control test : String}
    (hcontrol : FileStore.readText s controlName = .ok control)
    (htest : FileStore.readText s testName = .ok test) :
    (Request.command (.report controlName testName false)).execute s =
      .ofVerdict s (Command.reportVerdict control test) := by
  rw [← Command.execute_runReport]
  simp only [execute, answer, Command.answer, Command.withText, hcontrol, htest]

omit [FileStore Store] in
/-- That all is valid and that something is malformed are told with another status each. -/
theorem Execution.ofVerdict_valid_ne_malformed (s : Store) (cause : Malformed) :
    ofVerdict s .valid ≠ ofVerdict s (.malformed cause) := by
  intro h
  cases congrArg Execution.status h

/-- For all names and files, the report command tells the verdict of `verify` exactly if it is not
the case that the test text is blank, but the control text is neither blank nor a document. In that
case the verdict is valid and the command tells what is wrong with the control text. -/
theorem report_tells_verdict (s : Store) (controlName testName control test : String)
    (hcontrol : FileStore.readText s controlName = .ok control)
    (htest : FileStore.readText s testName = .ok test) :
    (Command.looksLikeSwitch controlName = false → Command.looksLikeSwitch testName = false →
      Request.ofArguments ["report", controlName, testName] =
        .ok (.command (.report controlName testName false))) ∧
    ((Request.command (.report controlName testName false)).execute s =
        .ofVerdict s (verify control test) ↔
      ¬ (Text.isBlankText test = true ∧ Text.isBlankText control = false ∧
        ∃ error, Document.parse control = .error error)) ∧
    ∀ error, Text.isBlankText test = true → Text.isBlankText control = false →
      Document.parse control = .error error → verify control test = .valid ∧
        (Request.command (.report controlName testName false)).execute s =
          .ofVerdict s (.malformed ⟨.control, error⟩) := by
  have hexception : ∀ error, Text.isBlankText test = true → Text.isBlankText control = false →
      Document.parse control = .error error → verify control test = .valid ∧
        Command.reportVerdict control test = .malformed ⟨.control, error⟩ := by
    intro error hblank hcontrolBlank hparse
    exact ⟨(same_of_blank (by rw [hblank, Bool.or_true])).2,
      Command.reportVerdict_of_parse_error hcontrolBlank hparse⟩
  rw [Request.execute_report hcontrol htest]
  refine ⟨Request.ofArguments_report, ⟨?_, ?_⟩, ?_⟩
  · rintro htells ⟨hblank, hcontrolBlank, error, hparse⟩
    obtain ⟨hvalid, hmalformed⟩ := hexception error hblank hcontrolBlank hparse
    rw [hvalid, hmalformed] at htells
    exact Execution.ofVerdict_valid_ne_malformed s _ htells.symm
  · intro hordinary
    congr 1
    cases hcontrolBlank : Text.isBlankText control with
    | true => exact Command.reportVerdict_of_blank hcontrolBlank
    | false =>
      cases hparse : Document.parse control with
      | ok c => exact Command.reportVerdict_of_parse hparse
      | error error =>
        have htestBlank : Text.isBlankText test = false := by
          rw [← Bool.not_eq_true]
          exact fun hblank => hordinary ⟨hblank, hcontrolBlank, error, hparse⟩
        rw [Command.reportVerdict_of_parse_error hcontrolBlank hparse,
          (malformed_of_parse_error (by rw [hcontrolBlank, htestBlank]; rfl) hparse).2]
  · intro error hblank hcontrolBlank hparse
    obtain ⟨hvalid, hmalformed⟩ := hexception error hblank hcontrolBlank hparse
    exact ⟨hvalid, congrArg _ hmalformed⟩

/-- A directory with a control text under the name `c` and a test text under the name `t`. -/
def twoFiles (control test : String) : Directory :=
  .ofFiles [("c", control.toUTF8), ("t", test.toUTF8)]

/-- Both texts are documents, and the command tells what is found. -/
theorem report_tells_missing_item :
    (twoFiles "<r><i/></r>" "<r/>").readText "c" = .ok "<r><i/></r>" ∧
    (twoFiles "<r><i/></r>" "<r/>").readText "t" = .ok "<r/>" ∧
    (Command.looksLikeSwitch "c" = false → Command.looksLikeSwitch "t" = false →
      Request.ofArguments ["report", "c", "t"] = .ok (.command (.report "c" "t" false))) ∧
    ((Request.command (.report "c" "t" false)).execute (twoFiles "<r><i/></r>" "<r/>") =
        .ofVerdict (twoFiles "<r><i/></r>" "<r/>") (verify "<r><i/></r>" "<r/>") ↔
      ¬ (Text.isBlankText "<r/>" = true ∧ Text.isBlankText "<r><i/></r>" = false ∧
        ∃ error, Document.parse "<r><i/></r>" = .error error)) ∧
    ∀ error, Text.isBlankText "<r/>" = true → Text.isBlankText "<r><i/></r>" = false →
      Document.parse "<r><i/></r>" = .error error → verify "<r><i/></r>" "<r/>" = .valid ∧
        (Request.command (.report "c" "t" false)).execute (twoFiles "<r><i/></r>" "<r/>") =
          .ofVerdict (twoFiles "<r><i/></r>" "<r/>") (.malformed ⟨.control, error⟩) := by
  have hcontrol : (twoFiles "<r><i/></r>" "<r/>").readText "c" = .ok "<r><i/></r>" := by
    decide
  have htest : (twoFiles "<r><i/></r>" "<r/>").readText "t" = .ok "<r/>" := by decide
  exact ⟨hcontrol, htest, report_tells_verdict _ _ _ _ _ hcontrol htest⟩

/-- With an empty test text the verdict is valid, but the command fails on an open element in the
control text. -/
theorem malformed_of_open_element :
    ¬ ∀ (d : Directory) (controlName testName control test : String),
    d.readText controlName = .ok control → d.readText testName = .ok test →
      let run := (Request.command (.report controlName testName false)).execute d
      match verify control test with
      | .valid => run.status = 0 ∧ run.output = "valid\n"
      | .invalid findings => run.status = 1 ∧
        run.output = String.join (findings.map fun f => f.text ++ "\n")
      | .malformed _ => run.status = 2 := by
  intro h
  have hcontrol : (twoFiles "<r>" "").readText "c" = .ok "<r>" := by decide
  have htest : (twoFiles "<r>" "").readText "t" = .ok "" := by decide
  have hparse : Document.parse "<r>" = .error ⟨.unclosedElement "r", ⟨1, 4⟩⟩ := by decide
  have hvalid : verify "<r>" "" = .valid := rfl
  have hrun := h _ _ _ _ _ hcontrol htest
  simp only [hvalid, Request.execute_report hcontrol htest,
    Command.reportVerdict_of_parse_error rfl hparse] at hrun
  cases hrun.1

end XmlCompare
