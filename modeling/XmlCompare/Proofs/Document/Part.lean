import XmlCompare.Proofs.Document.Merging
import XmlCompare.Proofs.Document.Origin

/-!
# What part of a text does to a tree

A text that is put together from parts is read part after part. What a part does to a growing tree
is said by what has to hold of the tree before it, and by how the tree behind it follows from that
one; parts are put together accordingly. All tags of a part are closed in it again.
-/

set_option autoImplicit false

namespace XmlCompare

open Event (State)
open Event.State (Steps enter_eq_ok_iff leave_eq_ok_iff step_eq_ok_iff characters_eq_ok_iff)
open Markup (Token Writable tagContent)
open Markup.Token (Piece namesAfter?)
open Markup.Token.Piece (join place merge data)
open Text (Resolves)

/-- Part of a text that can be read where the tree is as `pre` asks; `post` ties the tree behind it
to the tree before it. -/
def Reads (pre : Growth → Prop) (part : List Char) (post : Growth → Growth → Prop) : Prop :=
  ∃ pieces, (∀ p ∈ pieces, p.Spelled) ∧ join pieces = part ∧
    (∀ names, (pieces.map Piece.token).foldlM namesAfter? names = some names) ∧
    ∀ source start s g, g.sketch.Follows s → pre g → ∃ events s',
      Steps source s (place start pieces) events s' ∧ post g (events.foldl Growth.step g)

/-- Steps keep the tree in step with the state. -/
theorem Growth.follows_steps {source : String} {s s' : State} {tokens : List Markup.PlacedToken}
    {events : List Event} {g : Growth} (h : g.sketch.Follows s)
    (hsteps : Steps source s tokens events s') : (events.foldl Growth.step g).sketch.Follows s' :=
  (follows_run h (Event.State.run_of_steps hsteps).1).1

/-- An element is open exactly where the tree has an open element. -/
theorem Growth.frames_eq_nil_iff {g : Growth} {s : State} (h : g.sketch.Follows s) :
    s.frames = [] ↔ g.stack = [] := by
  rw [h.frames, Growth.sketch, List.map_eq_nil_iff, List.map_eq_nil_iff]

/-- A root may open where no element is open and none has been closed. -/
theorem Growth.seenRoot_of_stack {g : Growth} {s : State} (h : g.sketch.Follows s)
    (hroot : g.stack = [] → g.root = none) : s.frames = [] → s.seenRoot = false := by
  intro hframes
  have hstack := (frames_eq_nil_iff h).mp hframes
  rw [h.seenRoot, Growth.sketch, hstack, hroot hstack]
  rfl

namespace Reads

variable {pre pre' : Growth → Prop} {post post' : Growth → Growth → Prop} {part part' : List Char}

/-- More may be asked of the tree before a part, and less be said of the tree behind it. -/
theorem imp (h : Reads pre part post) (hpre : ∀ g, pre' g → pre g)
    (hpost : ∀ g g', pre' g → post g g' → post' g g') : Reads pre' part post' := by
  obtain ⟨pieces, hspelled, hjoin, hnames, hread⟩ := h
  refine ⟨pieces, hspelled, hjoin, hnames, fun source start s g hfollows hg => ?_⟩
  obtain ⟨events, s', hsteps, hgrown⟩ := hread source start s g hfollows (hpre g hg)
  exact ⟨events, s', hsteps, hpost g _ hg hgrown⟩

/-- An empty part changes nothing. -/
theorem nil : Reads pre [] fun g g' => g' = g :=
  ⟨[], by simp, rfl, fun _ => rfl, fun _ _ s _ _ _ => ⟨[], s, .done, rfl⟩⟩

/-- Parts that are read one after the other. -/
theorem append (h : Reads pre part post) (h' : Reads pre' part' post')
    (hpre : ∀ g g', pre g → post g g' → pre' g') :
    Reads pre (part ++ part') fun g g'' => ∃ g', post g g' ∧ post' g' g'' := by
  obtain ⟨pieces, hspelled, hjoin, hnames, hread⟩ := h
  obtain ⟨pieces', hspelled', hjoin', hnames', hread'⟩ := h'
  refine ⟨pieces ++ pieces', List.forall_mem_append.mpr ⟨hspelled, hspelled'⟩, ?_, ?_, ?_⟩
  · rw [Piece.join_append, hjoin, hjoin']
  · intro names
    rw [List.map_append, List.foldlM_append, hnames]
    exact hnames' names
  · intro source start s g hfollows hg
    obtain ⟨events, s', hsteps, hgrown⟩ := hread source start s g hfollows hg
    obtain ⟨events', s'', hsteps', hgrown'⟩ := hread' source (start + Text.byteSize (join pieces))
      s' _ (Growth.follows_steps hfollows hsteps) (hpre g _ hg hgrown)
    rw [Piece.place_append]
    refine ⟨events ++ events', s'', hsteps.append hsteps', _, hgrown, ?_⟩
    rw [List.foldl_append]
    exact hgrown'

/-- A comment is added to the tree. -/
theorem comment {body : List Char} (h : Piece.IsBody body) :
    Reads pre ("<!--".toList ++ body ++ "-->".toList)
      fun g g' => g' = g.addComment (String.ofList body) := by
  refine ⟨[Piece.comment body], List.forall_mem_singleton.mpr (Piece.spelled_comment h), ?_,
    fun _ => rfl, fun source start s g _ _ => ?_⟩
  · simp [join, Piece.comment]
  · exact ⟨_, s, .step (step_eq_ok_iff.mpr .comment) .done, rfl⟩

/-- Character data inside an element is added to the tree. -/
theorem text {raw content : List Char} (hne : raw ≠ []) (hno : '<' ∉ raw)
    (hraw : Resolves raw content) :
    Reads (fun g => g.stack ≠ []) raw fun g g' => g' = g.addText (String.ofList content) := by
  refine ⟨[⟨.text raw, raw⟩], List.forall_mem_singleton.mpr (.text hne hno), List.append_nil raw,
    fun _ => rfl, fun source start s g hfollows hg => ?_⟩
  have hchars : s.characters (.ofText source) start content =
      .ok [.text (String.ofList content)] :=
    characters_eq_ok_iff.mpr (.inl ⟨(Growth.frames_eq_nil_iff hfollows).not.mpr hg, rfl⟩)
  exact ⟨_, s, .step (step_eq_ok_iff.mpr (.text (Text.unescape_eq_ok_iff.mpr hraw) hchars)) .done,
    rfl⟩

/-- Blanks outside the root add nothing to the tree. -/
theorem blank {blanks : List Char} (h : ∀ c ∈ blanks, Text.isMarkupBlank c = true) :
    Reads (fun g => g.stack = []) blanks fun g g' => g' = g := by
  have hnot : ∀ {d : Char}, Text.isMarkupBlank d = false → d ∉ blanks :=
    Text.not_mem_of_isMarkupBlank h
  refine ⟨data blanks, Piece.spelled_data (hnot rfl), Piece.join_data blanks,
    Piece.namesAfter?_data blanks, fun source start s g hfollows hg => ?_⟩
  unfold data
  split
  · exact ⟨[], s, .done, rfl⟩
  · have hall : blanks.all Text.isBlank = true :=
      List.all_eq_true.mpr fun c hc => Text.isBlank_of_isMarkupBlank (h c hc)
    have hchars : s.characters (.ofText source) start blanks = .ok [] :=
      characters_eq_ok_iff.mpr (.inr ⟨(Growth.frames_eq_nil_iff hfollows).mpr hg, hall, rfl⟩)
    have hraw := Text.unescape_eq_ok_iff.mpr (Text.resolves_self (hnot (d := '&') rfl))
    exact ⟨_, s, .step (step_eq_ok_iff.mpr (.text hraw hchars)) .done, rfl⟩

/-- A line feed outside of the root changes nothing. -/
theorem lineBreak : Reads (fun g => g.stack = []) ['\n'] fun g g' => g' = g :=
  blank (List.forall_mem_singleton.mpr rfl)

/-! ## Elements -/

variable {name : String} {written : List (List Char × String × String)}

/-- An element opens where a tag is read that is as it was written. -/
theorem exists_enter (h : Writable name written) (lines : LineTable) (start : Nat) {s : State}
    (hfirst : s.frames = [] → s.seenRoot = false) : ∃ s' e,
      s.enter lines start (tagContent name written) = .ok (s', e) ∧ e.name = name ∧
        e.attributes = written.map Prod.snd ∧ s'.frames ≠ [] := by
  refine ⟨_, ⟨name, written.map Prod.snd, s.path.child name (s.counts.next (Name.localPart name)),
    lines.line start⟩, enter_eq_ok_iff.mpr ⟨hfirst, h.attributes_tagContent, ?_, rfl, rfl, rfl⟩,
    rfl, rfl, List.cons_ne_nil _ _⟩
  rw [h.name_tagContent, String.ofList_toList]

/-- What is open can be closed. -/
theorem exists_leave (lines : LineTable) (stop : Nat) {s : State} (h : s.frames ≠ []) :
    ∃ s' e, s.leave lines stop = .ok (s', e) := by
  obtain ⟨frame, frames, hframes⟩ := List.exists_cons_of_ne_nil h
  exact ⟨_, ⟨_, _⟩, leave_eq_ok_iff.mpr ⟨frame, frames, hframes, rfl, rfl, rfl⟩⟩

/-- A tag that is a whole element. -/
theorem single (h : Writable name written) :
    Reads (fun g => g.stack = [] → g.root = none) ('<' :: (tagContent name written ++ "/>".toList))
      fun g g' => ∃ e lines, e.name = name ∧ e.attributes = written.map Prod.snd ∧
        g' = (g.openElement e).closeElement lines := by
  refine ⟨[Piece.emptyTag (tagContent name written)],
    List.forall_mem_singleton.mpr (Piece.spelled_emptyTag h), ?_, fun _ => rfl,
    fun source start s g hfollows hg => ?_⟩
  · simp [join, Piece.emptyTag]
  · obtain ⟨s₁, e, henter, hname, hattributes, hopen⟩ :=
      exists_enter h (.ofText source) start (Growth.seenRoot_of_stack hfollows hg)
    obtain ⟨s', ended, hleave⟩ := exists_leave (.ofText source) start hopen
    exact ⟨_, s', .step (step_eq_ok_iff.mpr (.emptyTag henter hleave)) .done, e, ended.lines, hname,
      hattributes, rfl⟩

/-- An element whose inside can be read where the element has opened. -/
theorem paired (pre' : Growth → Prop) (h : Writable name written) (hinner : Reads pre part post)
    (hpre : ∀ g e, pre' g → e.name = name → e.attributes = written.map Prod.snd →
      pre (g.openElement e))
    (hpost : ∀ g g', pre g → post g g' → g'.stack ≠ []) :
    Reads (fun g => (g.stack = [] → g.root = none) ∧ pre' g)
      ('<' :: (tagContent name written ++ ['>'] ++ part ++ "</".toList ++ name.toList ++ ['>']))
      fun g g'' => ∃ e lines g', e.name = name ∧ e.attributes = written.map Prod.snd ∧
        post (g.openElement e) g' ∧ g'' = g'.closeElement lines := by
  obtain ⟨pieces, hspelled, hjoin, hnames, hread⟩ := hinner
  refine ⟨Piece.startTag (tagContent name written) :: (pieces ++ [Piece.endTag name.toList]),
    ?_, ?_, fun names => ?_, fun source start s g hfollows hg => ?_⟩
  · exact List.forall_mem_cons.mpr ⟨Piece.spelled_startTag h, List.forall_mem_append.mpr
      ⟨hspelled, List.forall_mem_singleton.mpr (Piece.spelled_endTag h.plain h.unbroken)⟩⟩
  · rw [Piece.join_cons, Piece.join_append, hjoin]
    simp [join, Piece.startTag, Piece.endTag]
  · have hend : namesAfter? (name.toList :: names) (.endTag name.toList) = some names := if_pos rfl
    rw [List.map_cons, List.foldlM_cons, List.map_append]
    show ((pieces.map Piece.token ++ [_]).foldlM namesAfter? (Markup.Tag.name _ :: names)) = _
    rw [h.name_tagContent, List.foldlM_append, hnames]
    simpa [Piece.endTag] using hend
  · obtain ⟨s₁, e, henter, hname, hattributes, -⟩ :=
      exists_enter h (.ofText source) start (Growth.seenRoot_of_stack hfollows hg.1)
    have hfollows₁ := (Growth.follows_step hfollows (.opened henter)).1
    have hready := hpre g e hg.2 hname hattributes
    obtain ⟨events, s₂, hsteps, hgrown⟩ := hread source
      (start + Text.byteSize (Piece.startTag (tagContent name written)).spelling) s₁ _ hfollows₁
      hready
    have hopen := (Growth.frames_eq_nil_iff (Growth.follows_steps hfollows₁ hsteps)).not.mpr
      (hpost _ _ hready hgrown)
    obtain ⟨s', ended, hleave⟩ := exists_leave (.ofText source) (start +
      Text.byteSize (Piece.startTag (tagContent name written)).spelling +
      Text.byteSize (join pieces) + Text.byteSize (Piece.endTag name.toList).spelling - 1) hopen
    rw [place, Piece.place_append]
    refine ⟨_, s', .step (step_eq_ok_iff.mpr (.startTag henter)) (hsteps.append
      (.step (step_eq_ok_iff.mpr (.endTag hleave)) .done)), e, ended.lines, _, hname, hattributes,
      hgrown, ?_⟩
    rw [List.foldl_append, List.foldl_append]
    rfl

end Reads

/-! ## Texts -/

/-- A byte order mark can begin no text outside the root. -/
theorem Event.State.head?_join_of_steps {source : String} {pieces : List Piece}
    (hspelled : ∀ p ∈ pieces, p.Spelled) {start : Nat} {s s' : State} {events : List Event}
    (h : Steps source s (place start pieces) events s') (hframes : s.frames = []) :
    (join pieces).head? ≠ some '\ufeff' := by
  cases pieces with
  | nil => exact nofun
  | cons p pieces =>
    rw [Piece.join_cons]
    obtain ⟨hp, -⟩ := List.forall_mem_cons.mp hspelled
    cases hp with
    | markup => exact nofun
    | @text raw hne =>
      obtain ⟨c, raw, rfl⟩ := List.exists_cons_of_ne_nil hne
      rintro ⟨⟩
      cases h with
      | step hstep _ =>
        cases step_eq_ok_iff.mp hstep with
        | text hraw hchars =>
          have hmarked : Resolves (['\ufeff'] ++ raw) _ := Text.unescape_eq_ok_iff.mp hraw
          obtain ⟨content, rfl, -⟩ := hmarked.of_plain_append (by decide)
          rcases characters_eq_ok_iff.mp hchars with ⟨hopen, -⟩ | ⟨-, hblank, -⟩
          · exact hopen hframes
          · exact absurd (List.all_eq_true.mp hblank '\ufeff' (by simp)) (by decide)

/-- Pieces whose tags match and that can be followed to the end are a document: the one that their
events describe. -/
theorem Document.parse_of_steps {source : String} {pieces : List Piece} {events : List Event}
    {s : State} {d : Document} {names : List (List Char)} (hspelled : ∀ p ∈ pieces, p.Spelled)
    (hjoin : join pieces = source.toList)
    (hnames : (pieces.map Piece.token).foldlM namesAfter? [] = some names)
    (hsteps : Steps source .initial (place 0 pieces) events s) (hframes : s.frames = [])
    (hroot : s.seenRoot = true) (hd : ofEvents? events = some d) :
    Document.parse source = .ok d := by
  obtain ⟨events', hsteps', hfold⟩ := hsteps.merge hspelled
  have hchain := Piece.chain_merge hspelled
  have hmark := Event.State.head?_join_of_steps hspelled hsteps rfl
  have htext : join (merge pieces) = Token.dropByteOrderMark source.toList := by
    rw [Piece.join_merge, Token.dropByteOrderMark_eq_self (hjoin ▸ hmark), hjoin]
  have hfault : (Token.readAll source).fault? = none := by
    refine (Token.readAll_of_chain hchain htext).mpr ⟨names, ?_⟩
    rw [Piece.foldlM_namesAfter?_merge, hnames]
  refine parse_eq_ok_iff.mpr ⟨events', Event.toExcept_ofTokens_eq_ok_iff.mpr
    ⟨hfault, s, ?_, hframes, hroot⟩, ?_⟩
  · rw [Token.items_readAll hchain htext hfault]
    exact hsteps'
  · rw [ofEvents?, hfold]
    exact hd

/-- A text that can be read from the start, and that grows a root, is a document. -/
theorem Document.parse_of_reads {source : String} {pre : Growth → Prop}
    {post : Growth → Growth → Prop} (h : Reads pre source.toList post)
    (hpre : pre .initial)
    (hpost : ∀ g, post .initial g → g.stack = [] ∧ g.root.isSome) : ∃ g root,
      post .initial g ∧ g.root = some root ∧
        Document.parse source = .ok ⟨g.prolog, root, g.epilog⟩ := by
  obtain ⟨pieces, hspelled, hjoin, hnames, hread⟩ := h
  obtain ⟨events, s, hsteps, hgrown⟩ :=
    hread source 0 .initial .initial Sketch.follows_initial hpre
  have hfollows : (events.foldl Growth.step .initial).sketch.Follows s :=
    Growth.follows_steps Sketch.follows_initial hsteps
  obtain ⟨hstack, hroot⟩ := hpost _ hgrown
  obtain ⟨root, hroot⟩ := Option.isSome_iff_exists.mp hroot
  refine ⟨_, root, hgrown, hroot, parse_of_steps hspelled hjoin (hnames []) hsteps ?_ ?_ ?_⟩
  · exact (Growth.frames_eq_nil_iff hfollows).mpr hstack
  · rw [hfollows.seenRoot, Growth.sketch, hroot]
    rfl
  · rw [ofEvents?, hroot]
    rfl

end XmlCompare
