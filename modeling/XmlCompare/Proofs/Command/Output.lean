import XmlCompare.Command.Run
import XmlCompare.Proofs.Command.Switches
import XmlCompare.Proofs.File.Writing

/-!
# What a run changes

A run reads what it needs, comes to its answer, and only then writes. So it may write what it has
read from, and when something is wrong with what is read nothing is written. The one file that may
change is named on the command line by the switch for the output.
-/

set_option autoImplicit false

namespace XmlCompare

namespace Command

/-- The inputs that have to be documents. An edit takes any text. -/
def documents : Command → List String
  | index file _ => [file]
  | diff control test => [control, test]
  | report control test _ => [control, test]
  | format file _ _ => [file]
  | replace _ _ _ _ _ => []
  | remove _ _ _ _ => []

/-- The text that a command makes of what its files hold: a printed document, or an edited text. -/
inductive Gives (texts : Texts) : Command → String → Prop
  | format {file source text : String} {output : Option String} {options : PrintOptions} :
    texts file = .ok source → Document.format options source = .ok text →
    Gives texts (.format file output options) text
  | replace {file source replacement new text : String} {first last : Nat}
    {output : Option String} : texts file = .ok source → texts replacement = .ok new →
    Line.replaceLines source first last new = .ok text →
    Gives texts (.replace file first last replacement output) text
  | remove {file source text : String} {first last : Nat} {output : Option String} :
    texts file = .ok source → Line.removeLines source first last = .ok text →
    Gives texts (.remove file first last output) text

/-- Something is wrong with what the files of a command hold: one gives no text, one that has to be
a document is none, or lines are to be edited that are not there. -/
inductive Fails (texts : Texts) : Command → Prop
  | unreadable {c : Command} {name : String} {fault : FileFault} : name ∈ c.inputs →
    texts name = .error fault → Fails texts c
  | malformed {c : Command} {name text : String} {error : ParseError} : name ∈ c.documents →
    texts name = .ok text → Document.parse text = .error error → Fails texts c
  | replaceOutside {file source replacement new : String} {first last : Nat}
    {output : Option String} {fault : Line.RangeFault} : texts file = .ok source →
    texts replacement = .ok new → Line.replaceLines source first last new = .error fault →
    Fails texts (.replace file first last replacement output)
  | removeOutside {file source : String} {first last : Nat} {output : Option String}
    {fault : Line.RangeFault} : texts file = .ok source →
    Line.removeLines source first last = .error fault →
    Fails texts (.remove file first last output)

variable {texts : Texts} {c : Command} {name text : String}

/-- A command that gives a text has nothing wrong with its files. -/
theorem Gives.not_fails (h : c.Gives texts text) : ¬ c.Fails texts := by
  intro hfails
  cases h with
  | format hsource hformat =>
    cases hfails with
    | unreadable hinput hfault =>
      obtain rfl := List.mem_singleton.mp hinput
      cases hsource.symm.trans hfault
    | malformed hinput hread hparse =>
      obtain rfl := List.mem_singleton.mp hinput
      obtain rfl := Except.ok.inj (hsource.symm.trans hread)
      rw [Document.format, hparse] at hformat
      cases hformat
  | replace hsource hnew hedit =>
    cases hfails with
    | unreadable hinput hfault =>
      rcases List.mem_pair.mp hinput with rfl | rfl
      · cases hsource.symm.trans hfault
      · cases hnew.symm.trans hfault
    | malformed hinput _ _ => cases hinput
    | replaceOutside hsource' hnew' hfault =>
      obtain rfl := Except.ok.inj (hsource.symm.trans hsource')
      obtain rfl := Except.ok.inj (hnew.symm.trans hnew')
      cases hedit.symm.trans hfault
  | remove hsource hedit =>
    cases hfails with
    | unreadable hinput hfault =>
      obtain rfl := List.mem_singleton.mp hinput
      cases hsource.symm.trans hfault
    | malformed hinput _ _ => cases hinput
    | removeOutside hsource' hfault =>
      obtain rfl := Except.ok.inj (hsource.symm.trans hsource')
      cases hedit.symm.trans hfault

/-! ## What answers deliver -/

/-- An answer that is made with the help of a text is a failure if there is none. -/
theorem withText_cases (texts : Texts) (name : String) (answer : String → Answer) :
    (∃ text, texts name = .ok text ∧ withText texts name answer = answer text) ∨
      ∃ message, withText texts name answer = .failed message 1 := by
  unfold withText
  cases texts name with
  | error fault => exact .inr ⟨_, rfl⟩
  | ok text => exact .inl ⟨text, rfl, rfl⟩

/-- A listing goes to no file. -/
theorem delivery_runIndex (text : String) (path : Option String) :
    (runIndex text path).delivery = none := by
  unfold runIndex
  repeat' split
  all_goals rfl

/-- A comparison goes to no file. -/
theorem delivery_runDiff (control test : String) : (runDiff control test).delivery = none := by
  unfold runDiff
  split <;> rfl

/-- A report goes to no file. -/
theorem delivery_runReport (control test : String) (blocks : Bool) :
    (runReport control test blocks).delivery = none := by
  unfold runReport
  split <;> rfl

/-- A command that delivers nothing for a text delivers nothing for a file. -/
theorem delivery_of_withText {answer : String → Answer}
    (h : ∀ text, (answer text).delivery = none) (texts : Texts) (name : String) :
    (withText texts name answer).delivery = none := by
  rcases withText_cases texts name answer with ⟨text, -, hanswer⟩ | ⟨message, hfailed⟩
  · rw [hanswer]
    exact h text
  · rw [hfailed]
    rfl

/-- A result is an edited text or a failure. -/
theorem runEdit_cases (edited : Except Line.RangeFault String) (output : Option String) :
    (∃ text, edited = .ok text ∧ runEdit edited output = deliver output text) ∨
      ∃ message, runEdit edited output = .failed message 1 := by
  cases edited with
  | error fault => exact .inr ⟨_, rfl⟩
  | ok text => exact .inl ⟨text, rfl, rfl⟩

/-- Formatting delivers the printed document, or fails. -/
theorem runFormat_cases (source : String) (output : Option String) (options : PrintOptions) :
    (∃ text, Document.format options source = .ok text ∧
        runFormat source output options = deliver output text) ∨
      ∃ message, runFormat source output options = .failed message 1 := by
  unfold runFormat
  cases Document.format options source with
  | error error => exact .inr ⟨_, rfl⟩
  | ok text => exact .inl ⟨text, rfl, rfl⟩

/-- A command that has a result delivers or prints the text that it gives, or fails. The other
commands deliver nothing. -/
theorem answer_cases (texts : Texts) (c : Command) :
    (∃ text, c.Gives texts text ∧ c.answer texts = deliver c.output? text) ∨
      (∃ message, c.answer texts = .failed message 1) ∨
      c.output? = none ∧ (c.answer texts).delivery = none := by
  cases c with
  | index file path =>
    exact .inr (.inr ⟨rfl, delivery_of_withText (delivery_runIndex · path) texts file⟩)
  | diff control test =>
    refine .inr (.inr ⟨rfl, delivery_of_withText (fun text => ?_) texts control⟩)
    exact delivery_of_withText (delivery_runDiff text) texts test
  | report control test blocks =>
    refine .inr (.inr ⟨rfl, delivery_of_withText (fun text => ?_) texts control⟩)
    exact delivery_of_withText (delivery_runReport text · blocks) texts test
  | format file output options =>
    rcases withText_cases texts file fun text => runFormat text output options with
      ⟨source, hsource, hanswer⟩ | hfailed
    · rw [answer, hanswer]
      exact (runFormat_cases source output options).imp
        (fun ⟨text, hformat, hdeliver⟩ => ⟨text, .format hsource hformat, hdeliver⟩) .inl
    · exact .inr (.inl hfailed)
  | replace file first last replacement output =>
    rcases withText_cases texts file fun text => withText texts replacement fun replacement =>
        runEdit (Line.replaceLines text first last replacement) output with
      ⟨source, hsource, hanswer⟩ | hfailed
    · rw [answer, hanswer]
      rcases withText_cases texts replacement fun replacement =>
          runEdit (Line.replaceLines source first last replacement) output with
        ⟨new, hnew, hanswer'⟩ | hfailed
      · rw [hanswer']
        exact (runEdit_cases _ output).imp
          (fun ⟨text, hedit, hdeliver⟩ => ⟨text, .replace hsource hnew hedit, hdeliver⟩) .inl
      · exact .inr (.inl hfailed)
    · exact .inr (.inl hfailed)
  | remove file first last output =>
    rcases withText_cases texts file fun text =>
        runEdit (Line.removeLines text first last) output with ⟨source, hsource, hanswer⟩ | hfailed
    · rw [answer, hanswer]
      exact (runEdit_cases _ output).imp
        (fun ⟨text, hedit, hdeliver⟩ => ⟨text, .remove hsource hedit, hdeliver⟩) .inl
    · exact .inr (.inl hfailed)

end Command

section Store

open FileStore

variable {Store : Type} [FileStore Store]

/-- An answer that delivers nothing leaves all files as they were. -/
theorem Answer.store_execute_of_none {a : Answer} (h : a.delivery = none) (s : Store) :
    (a.execute s).store = s := by
  unfold execute
  rw [h]

/-- A run that names a file for its result writes what its command gives and comes to the status
zero, or it leaves all files as they were and comes to another status. A run that names none leaves
all files as they were. -/
theorem Request.execute_cases (s : Store) (r : Request) :
    (∃ c name text, r = .command c ∧ c.output? = some name ∧ c.Gives (readText s) text ∧
        write s name text = .ok (r.execute s).store ∧ (r.execute s).status = 0) ∨
      (r.execute s).store = s ∧
        ∀ c name, r = .command c → c.output? = some name → (r.execute s).status ≠ 0 := by
  cases r with
  | help => exact .inr ⟨rfl, nofun⟩
  | version => exact .inr ⟨rfl, nofun⟩
  | command c =>
    -- A command that names no file for its result has no status to come to.
    have hnameless : c.output? = none → ∀ c' name, Request.command c = .command c' →
        c'.output? = some name → ((Request.command c).execute s).status ≠ 0 := by
      intro hnone c' name hc hsome
      obtain rfl := Request.command.inj hc
      cases hnone.symm.trans hsome
    have hexecute : (Request.command c).execute s = (c.answer (readText s)).execute s := rfl
    rcases c.answer_cases (readText s) with ⟨text, hgives, hanswer⟩ | ⟨message, hanswer⟩ |
      ⟨hnone, hanswer⟩
    · cases houtput : c.output? with
      | none =>
        refine .inr ⟨?_, hnameless houtput⟩
        rw [hexecute, hanswer, houtput]
        rfl
      | some name =>
        rw [houtput] at hanswer
        cases hwrite : write s name text with
        | ok after =>
          have hwritten : (Request.command c).execute s = ⟨0, "", "", after⟩ := by
            simp only [hexecute, hanswer, Command.deliver, Answer.execute, hwrite]
          rw [hwritten]
          exact .inl ⟨c, name, text, rfl, houtput, hgives, hwrite, rfl⟩
        | error fault =>
          have hfailed : (Request.command c).execute s =
              ⟨1, "", "Error: " ++ fault.message ++ "\n", s⟩ := by
            simp only [hexecute, hanswer, Command.deliver, Answer.execute, hwrite, Answer.failed]
          rw [hfailed]
          exact .inr ⟨rfl, fun _ _ _ _ => Nat.one_ne_zero⟩
    · rw [hexecute, hanswer]
      exact .inr ⟨rfl, fun _ _ _ _ => Nat.one_ne_zero⟩
    · refine .inr ⟨?_, hnameless hnone⟩
      rw [hexecute]
      exact Answer.store_execute_of_none hanswer s

/-- Whatever is asked for on a command line, and wherever files are kept and their names lead, a run
changes at most the file that `format` or `fix` is given by the switch for the output. If that file
changes the status is zero, and if the status is zero the file holds the text that the command gives
for what its files held before the run, be it one of them or not. If something is wrong with what
they held, all files stay as they were. -/
theorem run_changes_only_output [LawfulFileStore Store] {arguments : List String} {r : Request}
    (h : Request.ofArguments arguments = .ok r) (s : Store) :
    (∀ key, bytes? (r.execute s).store key ≠ bytes? s key →
      ∃ c name text, r = .command c ∧ c.output? = some name ∧
        Request.NamesOutput arguments name ∧ LeadsTo s name key ∧ (r.execute s).status = 0 ∧
        c.Gives (readText s) text ∧
        bytes? (r.execute s).store key = some text.toUTF8) ∧
    (∀ c name, r = .command c → c.output? = some name → (r.execute s).status = 0 →
      ∃ text, c.Gives (readText s) text ∧ ∀ key, LeadsTo s name key →
        bytes? (r.execute s).store key = some text.toUTF8 ∧
        readText (r.execute s).store name = .ok text) ∧
    ∀ c, r = .command c → c.Fails (readText s) → (r.execute s).store = s := by
  rcases r.execute_cases s with ⟨c, name, text, rfl, houtput, hgives, hwrite, hstatus⟩ |
    ⟨hsame, hstatus⟩
  · refine ⟨fun key hne => ?_, ?_, ?_⟩
    · have hleads := leadsTo_of_write_of_ne hwrite hne
      exact ⟨c, name, text, rfl, houtput, Request.namesOutput_of_ofArguments h houtput, hleads,
        hstatus, hgives, bytes?_of_write hwrite hleads⟩
    · intro c' name' hc houtput' _
      obtain rfl := Request.command.inj hc
      obtain rfl := Option.some.inj (houtput.symm.trans houtput')
      exact ⟨text, hgives, fun key hleads =>
        ⟨bytes?_of_write hwrite hleads, readText_of_write hwrite hleads⟩⟩
    · intro c' hc hfails
      obtain rfl := Request.command.inj hc
      exact absurd hfails hgives.not_fails
  · rw [hsame]
    refine ⟨fun key hne => absurd rfl hne, fun c name hr houtput hzero => ?_, fun _ _ _ => rfl⟩
    exact absurd hzero (hstatus c name hr houtput)

end Store

/-- A directory with a list under the name `a`. -/
def listFile : Directory := .ofFiles [("a", "<r><i/></r>".toUTF8)]

/-- A list may be formatted in place: the run reads it before it writes. -/
theorem run_formats_in_place :
    Request.ofArguments ["format", "a", "-o", "a"] =
        .ok (.command (.format "a" (some "a") {})) ∧
      listFile.readText "a" = .ok "<r><i/></r>" ∧
      ((Request.command (.format "a" (some "a") {})).execute listFile).store.readText "a" =
        .ok "<?xml version=\"1.0\" encoding=\"UTF-8\"?>\n<r>\n  <i/>\n</r>\n" := by
  have harguments : Request.ofArguments ["format", "a", "-o", "a"] =
      .ok (.command (.format "a" (some "a") {})) := rfl
  have hread : listFile.readText "a" = .ok "<r><i/></r>" := by decide
  have hformat : Document.format {} "<r><i/></r>" =
      .ok "<?xml version=\"1.0\" encoding=\"UTF-8\"?>\n<r>\n  <i/>\n</r>\n" := by decide +kernel
  have hstatus : ((Request.command (.format "a" (some "a") {})).execute listFile).status = 0 := by
    decide
  have hleads : FileStore.LeadsTo listFile "a" ["a"] := by
    show listFile.destination "a" = .ok (some ["a"])
    decide
  obtain ⟨-, hwritten, -⟩ := run_changes_only_output harguments listFile
  obtain ⟨text, hgives, hfile⟩ := hwritten _ "a" rfl rfl hstatus
  cases hgives with
  | format hsource hprinted =>
    obtain rfl := Except.ok.inj (hread.symm.trans hsource)
    obtain rfl := Except.ok.inj (hformat.symm.trans hprinted)
    exact ⟨harguments, hread, (hfile ["a"] hleads).2⟩

end XmlCompare
