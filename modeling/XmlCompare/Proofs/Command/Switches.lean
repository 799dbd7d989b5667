import Mathlib.Data.List.Basic
import XmlCompare.Command.Basic

/-!
# What a command line gives

Whatever way a switch is written, it is read as one of the switches that the command knows, and a
command is made of what has been read. So a command that puts its result into a file was given the
name of the file by the switch for the output.
-/

set_option autoImplicit false

namespace XmlCompare

namespace Command

variable {known : List Switch} {s : Switch} {r : Reading Item UsageFault}

/-- The name of the file for the result of a command. -/
def output? : Command → Option String
  | index _ _ => none
  | diff _ _ => none
  | report _ _ _ => none
  | format _ output _ => output
  | replace _ _ _ _ output => output
  | remove _ _ _ output => output

/-! ## How switches are written -/

/-- Letters behind a hyphen that end with the letter of a switch. Those before it are the letters of
switches that take no value. -/
inductive Bundle (known : List Switch) (s : Switch) : List Char → Prop
  | last {c : Char} : s.letter = some c → Bundle known s [c]
  | cons {c : Char} {first : Switch} {letters : List Char} : first ∈ known →
    first.letter = some c → first.takes = .nothing → Bundle known s letters →
    Bundle known s (c :: letters)

/-- Arguments in a row that give a value to a switch, by its name or by its letter. The value is the
next argument, if that does not look like a switch, or it is joined to the name or letter. -/
inductive Spells (known : List Switch) (s : Switch) (value : String) : List String → Prop
  | name : looksLikeSwitch value = false → Spells known s value ["--" ++ s.long, value]
  | joinedName : Spells known s value ["--" ++ s.long ++ "=" ++ value]
  | letter {letters : List Char} : Bundle known s letters → looksLikeSwitch value = false →
    Spells known s value ["-" ++ String.ofList letters, value]
  | joinedLetter {letters : List Char} : Bundle known s letters →
    Spells known s value ["-" ++ String.ofList letters ++ value]
  | equalsLetter {letters : List Char} : Bundle known s letters →
    Spells known s value ["-" ++ String.ofList letters ++ "=" ++ value]

/-- Among the arguments, and before two hyphens alone, are some that give the value to the
switch. -/
def Written (known : List Switch) (s : Switch) (value : String) (arguments : List String) : Prop :=
  ∃ before spelling behind, arguments = before ++ spelling ++ behind ∧
    Spells known s value spelling ∧ "--" ∉ before

/-- What is written among the arguments is written behind one more. -/
theorem Written.cons {value argument : String} {arguments : List String}
    (h : Written known s value arguments) (hargument : argument ≠ "--") :
    Written known s value (argument :: arguments) := by
  obtain ⟨before, spelling, behind, rfl, hspells, hbefore⟩ := h
  exact ⟨argument :: before, spelling, behind, rfl, hspells,
    List.not_mem_cons_of_ne_of_not_mem (Ne.symm hargument) hbefore⟩

/-- The arguments that give the value may come first. -/
theorem Spells.written {value : String} {spelling : List String}
    (h : Spells known s value spelling) (behind : List String) :
    Written known s value (spelling ++ behind) :=
  ⟨[], spelling, behind, rfl, h, List.not_mem_nil⟩

/-- Every switch that has been read is known, and if it takes a value it is written with that among
the arguments. -/
def OnlyWritten (known : List Switch) (arguments : List String) (r : Reading Item UsageFault) :
    Prop :=
  ∀ s value, .switch s value ∈ r.items →
    s ∈ known ∧ (s.takes ≠ .nothing → Written known s value arguments)

variable {arguments : List String} {argument : String}

/-- Nothing has been read where reading fails at once. -/
theorem onlyWritten_failed (fault : UsageFault) : OnlyWritten known arguments (.failed fault) :=
  nofun

/-- What has been read of some arguments has been read of these with one more in front. -/
theorem OnlyWritten.cons (h : OnlyWritten known arguments r) (hargument : argument ≠ "--") :
    OnlyWritten known (argument :: arguments) r := fun s value hmem =>
  ⟨(h s value hmem).1, fun htakes => ((h s value hmem).2 htakes).cons hargument⟩

/-- A switch without a value may come first. -/
theorem OnlyWritten.switch (h : OnlyWritten known arguments r) (hs : s ∈ known)
    (htakes : s.takes = .nothing) : OnlyWritten known arguments (.item (.switch s "") r) := by
  intro s' value' hmem
  rcases List.mem_cons.mp hmem with heq | hmem
  · obtain ⟨rfl, -⟩ := Item.switch.inj heq
    exact ⟨hs, fun hvalue => absurd htakes hvalue⟩
  · exact h s' value' hmem

/-- An operand is no switch. -/
theorem OnlyWritten.operand (h : OnlyWritten known arguments r) (value : String) :
    OnlyWritten known arguments (.item (.operand value) r) := by
  intro s' value' hmem
  rcases List.mem_cons.mp hmem with heq | hmem
  · cases heq
  · exact h s' value' hmem

/-- Neither are several operands. -/
theorem OnlyWritten.operands (h : OnlyWritten known arguments r) (values : List String) :
    OnlyWritten known arguments (r.prepend (values.map Item.operand)) := by
  induction values with
  | nil => exact h
  | cons value values ih => exact ih.operand value

/-- Several switches without values may come first. -/
theorem OnlyWritten.switches (h : OnlyWritten known arguments r) {switches : List Switch}
    (hswitches : ∀ s ∈ switches, s ∈ known ∧ s.takes = .nothing) :
    OnlyWritten known arguments (r.prepend (switches.map (Item.switch · ""))) := by
  induction switches with
  | nil => exact h
  | cons s switches ih =>
    obtain ⟨⟨hs, htakes⟩, hswitches⟩ := List.forall_mem_cons.mp hswitches
    exact (ih hswitches).switch hs htakes

/-- A switch with a value that is written among the arguments may come first. -/
theorem OnlyWritten.withValue (h : OnlyWritten known arguments r) (hs : s ∈ known) {value : String}
    (hwritten : Written known s value arguments) :
    OnlyWritten known arguments (consItem (withValue s value) r) := by
  unfold Command.withValue
  split
  · exact onlyWritten_failed _
  · intro s' value' hmem
    rcases List.mem_cons.mp hmem with heq | hmem
    · obtain ⟨rfl, rfl⟩ := Item.switch.inj heq
      exact ⟨hs, fun _ => hwritten⟩
    · exact h s' value' hmem

/-- What looks like no switch is not two hyphens. -/
theorem ne_of_looksLikeSwitch {value : String} (h : looksLikeSwitch value = false) :
    value ≠ "--" := by
  rintro rfl
  cases h

/-- The letters behind a hyphen are those of switches without values, and at their end there may be
that of a switch with its value, or without one. -/
theorem readLetters_spec (known : List Switch) (letters : List Char) :
    (∀ s ∈ (readLetters known letters).1, s ∈ known ∧ s.takes = .nothing) ∧
      match (readLetters known letters).2 with
      | .complete => True
      | .unknown _ => True
      | .value s value => s ∈ known ∧ ∃ bundle, Bundle known s bundle ∧
        (letters = bundle ++ value ∨ letters = bundle ++ '=' :: value)
      | .needsValue s => s ∈ known ∧ Bundle known s letters := by
  have hletter : ∀ {c : Char} {s : Switch}, known.find? (·.letter = some c) = some s →
      s ∈ known ∧ s.letter = some c := by
    intro c s hfind
    exact ⟨List.mem_of_find?_eq_some hfind, by simpa using List.find?_some hfind⟩
  fun_induction readLetters known letters with
  | case1 | case2 => exact ⟨nofun, trivial⟩
  | case3 c cs s hfind htakes more ending hread ih =>
    obtain ⟨hs, hc⟩ := hletter hfind
    rw [hread] at ih
    refine ⟨List.forall_mem_cons.mpr ⟨⟨hs, htakes⟩, ih.1⟩, ?_⟩
    have hending := ih.2
    cases ending with
    | complete => trivial
    | unknown letter => trivial
    | value s' value =>
      obtain ⟨hs', bundle, hbundle, hcs⟩ := hending
      exact ⟨hs', c :: bundle, .cons hs hc htakes hbundle,
        hcs.imp (congrArg (c :: ·)) (congrArg (c :: ·))⟩
    | needsValue s' => exact ⟨hending.1, .cons hs hc htakes hending.2⟩
  | case4 c s hfind =>
    obtain ⟨hs, hc⟩ := hletter hfind
    exact ⟨nofun, hs, .last hc⟩
  | case5 c s hfind _ value =>
    obtain ⟨hs, hc⟩ := hletter hfind
    exact ⟨nofun, hs, [c], .last hc, .inr rfl⟩
  | case6 c s hfind _ value =>
    obtain ⟨hs, hc⟩ := hletter hfind
    exact ⟨nofun, hs, [c], .last hc, .inl rfl⟩

/-- What stands behind two hyphens is a name, or a name and a value with an equals sign between. -/
theorem eq_of_cut {body : List Char} {name : String} {value : Option String}
    (hargument : argument.toList = '-' :: '-' :: body)
    (hcut : (match Text.cutAt '=' body with
      | some (name, value) => (String.ofList name, some (String.ofList value))
      | none => (String.ofList body, none)) = (name, value)) :
    argument = "--" ++ name ++ value.elim "" ("=" ++ ·) := by
  rw [← String.toList_inj, hargument]
  split at hcut
  · rename_i front behind hfound
    obtain ⟨-, rfl⟩ := Text.cutAt_eq_some_iff.mp hfound
    obtain ⟨rfl, rfl⟩ := Prod.mk.inj hcut
    simp
  · obtain ⟨rfl, rfl⟩ := Prod.mk.inj hcut
    simp

/-- A value that is joined to letters, with an equals sign between or without one, is spelled by
them. -/
theorem spells_of_letters {letters bundle value : List Char}
    (hargument : argument.toList = '-' :: letters) (hbundle : Bundle known s bundle)
    (hletters : letters = bundle ++ value ∨ letters = bundle ++ '=' :: value) :
    Spells known s (String.ofList value) [argument] := by
  rcases hletters with rfl | rfl
  · have heq : argument = "-" ++ String.ofList bundle ++ String.ofList value := by
      rw [← String.toList_inj, hargument]
      simp
    exact heq ▸ .joinedLetter hbundle
  · have heq : argument = "-" ++ String.ofList bundle ++ "=" ++ String.ofList value := by
      rw [← String.toList_inj, hargument]
      simp
    exact heq ▸ .equalsLetter hbundle

/-- The arguments behind a command are read as switches that it knows, with the values that are
written there. -/
theorem onlyWritten_readItems (known : List Switch) (arguments : List String) :
    OnlyWritten known arguments (readItems known arguments) := by
  have hnamed : ∀ {name : String} {s : Switch}, known.find? (·.long = name) = some s →
      s ∈ known ∧ s.long = name := by
    intro name s hfind
    exact ⟨List.mem_of_find?_eq_some hfind, by simpa using List.find?_some hfind⟩
  have hnot : ∀ {argument : String}, argument.toList ≠ ['-', '-'] → argument ≠ "--" := by
    rintro argument hne rfl
    exact hne rfl
  fun_induction readItems known arguments with
  | case1 => nofun
  | case2 argument rest =>
    have hdone : OnlyWritten known (argument :: rest) .done := nofun
    exact hdone.operands rest
  | case3 | case5 | case7 | case8 => exact onlyWritten_failed _
  | case4 argument rest body hbody hargument name s hfind htakes _ ih =>
    have hne : argument ≠ "--" := hnot (by simpa [hargument] using hbody)
    exact (ih.cons hne).switch (hnamed hfind).1 htakes
  | case6 argument rest body hbody hargument name s hfind value _ hcut ih =>
    obtain ⟨hs, rfl⟩ := hnamed hfind
    have hne : argument ≠ "--" := hnot (by simpa [hargument] using hbody)
    have hspells : Spells known s value [argument] := by
      rw [eq_of_cut hargument hcut, Option.elim_some, ← String.append_assoc]
      exact .joinedName
    exact (ih.cons hne).withValue hs (hspells.written rest)
  | case9 argument body hbody hargument name s hfind value rest hvalue _ hcut ih =>
    obtain ⟨hs, rfl⟩ := hnamed hfind
    have hne : argument ≠ "--" := hnot (by simpa [hargument] using hbody)
    have hplain : looksLikeSwitch value = false := by simpa using hvalue
    have hspells : Spells known s value [argument, value] := by
      rw [eq_of_cut hargument hcut, Option.elim_none, String.append_empty]
      exact .name hplain
    exact ((ih.cons (ne_of_looksLikeSwitch hplain)).cons hne).withValue hs (hspells.written rest)
  | case10 argument rest c cs hnonempty hhyphen hargument switches ending hread ih ih' =>
    have hne : argument ≠ "--" := hnot (by simpa [hargument] using hnonempty)
    obtain ⟨hswitches, hending⟩ := readLetters_spec known (c :: cs)
    rw [hread] at hswitches hending
    refine OnlyWritten.switches ?_ hswitches
    cases ending with
    | complete => exact ih.cons hne
    | unknown letter => exact onlyWritten_failed _
    | value s value =>
      obtain ⟨hs, bundle, hbundle, hletters⟩ := hending
      have hspells : Spells known s (String.ofList value) [argument] :=
        spells_of_letters hargument hbundle hletters
      exact (ih.cons hne).withValue hs (hspells.written rest)
    | needsValue s =>
      cases rest with
      | nil => exact onlyWritten_failed _
      | cons value rest =>
        dsimp only
        split
        · exact onlyWritten_failed _
        · rename_i hvalue
          have hplain : looksLikeSwitch value = false := by simpa using hvalue
          have heq : argument = "-" ++ String.ofList (c :: cs) := by
            rw [← String.toList_inj, hargument]
            simp
          have hspells : Spells known s value [argument, value] := heq ▸ .letter hending.2 hplain
          have hbehind : OnlyWritten known rest (readItems known rest) := ih'
          exact ((hbehind.cons (ne_of_looksLikeSwitch hplain)).cons hne).withValue hending.1
            (hspells.written rest)
  | case11 argument rest hne _ _ ih => exact (ih.cons (hnot hne)).operand argument

/-! ## What is given -/

variable {given given' : Given} {limit : Nat} {c : Command} {name output : String}

/-- What is collected has been given by a switch that was read. -/
theorem exists_switch_of_collect (h : collect limit given r = .ok (some given')) :
    ∀ e ∈ given'.switches, e ∈ given.switches ∨ ∃ s, s.long = e.1 ∧ .switch s e.2 ∈ r.items := by
  induction r generalizing given with
  | done =>
    obtain rfl := Option.some.inj (Except.ok.inj h)
    exact fun e he => .inl he
  | failed fault => cases h
  | item first rest ih =>
    intro e he
    -- What was read behind the first item was read.
    have hbehind : (∃ s, s.long = e.1 ∧ .switch s e.2 ∈ rest.items) →
        ∃ s, s.long = e.1 ∧ .switch s e.2 ∈ (Reading.item first rest).items :=
      fun ⟨s, hlong, hmem⟩ => ⟨s, hlong, List.mem_cons_of_mem _ hmem⟩
    cases first with
    | operand value =>
      unfold collect at h
      split at h
      · exact (ih h e he).imp_right hbehind
      · cases h
    | switch s value =>
      unfold collect at h
      split at h
      · cases h
      · split at h
        · cases h
        · rcases ih h e he with hgiven | hread
          · rcases List.mem_append.mp hgiven with hgiven | hlast
            · exact .inl hgiven
            · obtain rfl := List.mem_singleton.mp hlast
              exact .inr ⟨s, rfl, List.mem_cons_self⟩
          · exact .inr (hbehind hread)

/-- What a switch was given is among what was given. -/
theorem mem_switches_of_value? {long value : String} (h : given.value? long = some value) :
    (long, value) ∈ given.switches := by
  obtain ⟨before, after, hsplit, -⟩ := List.lookup_eq_some_iff.mp h
  rw [hsplit]
  exact List.mem_append_right _ List.mem_cons_self

/-- The file for the result is what the switch for the output gives to one of two commands. -/
theorem output_of_ofGiven (h : ofGiven name given = .ok c) (houtput : c.output? = some output) :
    (name = "format" ∨ name = "fix") ∧ given.value? "output" = some output := by
  unfold ofGiven at h
  split at h
  · cases h
    cases houtput
  · cases h
    cases houtput
  · cases h
    cases houtput
  · cases h
    exact ⟨.inl rfl, houtput⟩
  · obtain ⟨first, -, h⟩ := bind_eq_ok_iff.mp h
    obtain ⟨last, -, h⟩ := bind_eq_ok_iff.mp h
    split at h
    · cases h
    · cases h
      exact ⟨.inr rfl, houtput⟩
    · cases h
      exact ⟨.inr rfl, houtput⟩
    · cases h
  · cases h

/-- Before a command nothing else is asked for than help or the version. -/
theorem ne_command_of_leading? {request : Request} (h : leading? r = .ok (some request)) :
    request ≠ .command c := by
  induction r with
  | done => cases h
  | failed fault => cases h
  | item first rest ih =>
    cases first with
    | operand value => cases h
    | switch s value =>
      unfold leading? at h
      split_ifs at h
      · cases h
        exact Request.noConfusion
      · cases h
        exact Request.noConfusion
      · exact ih h

/-- Help about a command is no command. -/
theorem ne_command_of_helpOn {names : List String} {request : Request}
    (h : Request.helpOn names = .ok request) : request ≠ .command c := by
  unfold Request.helpOn at h
  repeat' split at h
  all_goals cases h
  all_goals exact Request.noConfusion

/-- The switch for the output is the only one of its name that any command knows. -/
theorem eq_outputSwitch : ∀ form ∈ forms, ∀ s ∈ verboseSwitch :: helpSwitch :: form.switches,
    s.long = "output" → s = outputSwitch := by
  decide

end Command

namespace Request

open Command

/-- The arguments call `format` or `fix`, and behind that give it a file name by the switch for the
output: `--output NAME` or `--output=NAME`, or `-o NAME`, `-oNAME` or `-o=NAME`, where letters of
switches without values may stand between the hyphen and the `o`. -/
def NamesOutput (arguments : List String) (output : String) : Prop :=
  ∃ called rest form, arguments.dropWhile looksLikeSwitch = called :: rest ∧
    form? called = some form ∧ (form.name = "format" ∨ form.name = "fix") ∧
    .switch outputSwitch output ∈
      (readItems (verboseSwitch :: helpSwitch :: form.switches) rest).items ∧
    Written (verboseSwitch :: helpSwitch :: form.switches) outputSwitch output rest

/-- A command with an output was given its name in the arguments. -/
theorem namesOutput_of_ofArguments {arguments : List String} {c : Command} {output : String}
    (h : ofArguments arguments = .ok (.command c)) (houtput : c.output? = some output) :
    NamesOutput arguments output := by
  obtain ⟨early, hearly, h⟩ := bind_eq_ok_iff.mp h
  cases early with
  | some request => exact absurd (Except.ok.inj h) (ne_command_of_leading? hearly)
  | none =>
    dsimp only at h
    split at h
    · cases h
    · split at h
      · cases h
      · exact absurd rfl (ne_command_of_helpOn h)
      · rename_i called rest _ hcalled
        split at h
        · cases h
        · rename_i form hform
          obtain ⟨found, hcollect, h⟩ := bind_eq_ok_iff.mp h
          cases found with
          | none => cases h
          | some given =>
            obtain ⟨made, hgiven, hmade⟩ := bind_eq_ok_iff.mp h
            obtain rfl := Request.command.inj (Except.ok.inj hmade)
            obtain ⟨hname, hvalue⟩ := output_of_ofGiven hgiven houtput
            obtain hnone | ⟨s, hlong, hread⟩ :=
              exists_switch_of_collect hcollect _ (mem_switches_of_value? hvalue)
            · cases hnone
            · obtain ⟨hs, hwritten⟩ := onlyWritten_readItems _ _ s output hread
              obtain rfl := eq_outputSwitch form (List.mem_of_find?_eq_some hform) s hs hlong
              exact ⟨called, rest, form, hcalled, hform, hname, hread, hwritten nofun⟩

end Request

end XmlCompare
