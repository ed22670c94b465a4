import LiveDoc.Proofs.Layout.FilledEdits
import LiveDoc.Proofs.Layout.Infos
import LiveDoc.Proofs.Layout.Restated

/-!
# What a written document keeps behind the markers of its fences

What a fence says is written as it was read. So it stays the same where an opening with this text
says just that, and the fence is written where the old one was: for fences that a line of their own
closes (`Fence.Rewritable`). Then the fences of the written document say what those of the source
do, whatever containers they stand in and however they are indented
(`Document.keepsInfos_of_rewritable`).
-/

namespace LiveDoc

open Layout (Edit FenceShape)
open Markdown (Code FenceOpening Line Reader Restates Revision fenced glyphsAt rawLines)
open Text (Span)

namespace Markdown

/-- Whether fenced code is open when the lines of a text were read that start in front of a
place. -/
def isFenceOpen (source : List Char) (place : Nat) : Bool :=
  (((Line.ofText source).takeWhile (·.start < place)).foldl Reader.step .empty).leaf.isFence

/-- What the line says that starts with a marker of a length and goes on with a text, if it opens a
fence of this length. -/
def openingTells (marker : Char) (length : Nat) (info : List Char) :
    Option (Option String × String) :=
  (FenceOpening.read? (glyphsAt 0 0 (List.replicate length marker ++ info))).bind fun op =>
    if op.length = length then some op.tells else none

theorem exists_of_openingTells {marker : Char} {length : Nat} {info : List Char}
    {tells : Option String × String} (h : openingTells marker length info = some tells) :
    ∃ op, FenceOpening.read? (glyphsAt 0 0 (List.replicate length marker ++ info)) = some op ∧
      op.length = length ∧ op.tells = tells := by
  obtain ⟨op, hread, hop⟩ := Option.bind_eq_some_iff.mp h
  split at hop
  · next hlength => exact ⟨op, hread, hlength, Option.some.inj hop⟩
  · cases hop

end Markdown

/-- A fence that can be written anew with another content and say the same. A line of its own closes
it, no line of it ends with a carriage return alone, and what it says fits on the line of an opening
that says just this. -/
structure Fence.Rewritable (source : List Char) (f : Fence) (span : Span) (old : List Char) :
    Prop where
  opened : Markdown.isFenceOpen source (span.start + 1) = true
  closed : Markdown.isFenceOpen source span.stop = false
  noReturn : ∀ r ∈ rawLines old, r.ending ≠ ['\r']
  unbroken : ∀ c ∈ f.info.toList, Text.isUnbroken c
  tells : Markdown.openingTells (FenceShape.ofText old f.parsedBody.toList).marker
    (FenceShape.ofText old f.parsedBody.toList).length f.info.toList = some (f.language, f.info)

instance (source : List Char) (f : Fence) (span : Span) (old : List Char) :
    Decidable (f.Rewritable source span old) :=
  decidable_of_iff
    (Markdown.isFenceOpen source (span.start + 1) = true ∧
      Markdown.isFenceOpen source span.stop = false ∧
      (∀ r ∈ rawLines old, r.ending ≠ ['\r']) ∧ (∀ c ∈ f.info.toList, Text.isUnbroken c) ∧
      Markdown.openingTells (FenceShape.ofText old f.parsedBody.toList).marker
        (FenceShape.ofText old f.parsedBody.toList).length f.info.toList =
          some (f.language, f.info))
    ⟨fun ⟨h₁, h₂, h₃, h₄, h₅⟩ => ⟨h₁, h₂, h₃, h₄, h₅⟩,
      fun ⟨h₁, h₂, h₃, h₄, h₅⟩ => ⟨h₁, h₂, h₃, h₄, h₅⟩⟩

namespace Document

/-- Every template of a text can be written anew. -/
def RewritableTemplates (source : String) : Prop :=
  ∀ t ∈ (ofMarkdown source).root.fences, Text.isBlankText (t.body?.getD "").toList = false →
    ∀ f ∈ t.fence?, ∀ span ∈ t.span, ∀ old ∈ Text.slice source.toList span,
      f.Rewritable source.toList span old

instance (source : String) : Decidable (RewritableTemplates source) :=
  inferInstanceAs
    (Decidable (∀ t ∈ (ofMarkdown source).root.fences, _ → ∀ f ∈ t.fence?, ∀ span ∈ t.span,
      ∀ old ∈ Text.slice source.toList span, _))

variable {source : String}

/-- The fences of a text say what its fenced code does. -/
theorem infos_ofMarkdown (source : String) :
    (ofMarkdown source).root.infos = (fenced source.toList (codes source)).map Code.tells := by
  rw [Tree.infos, ofMarkdown, Tree.fences_ofMarkdown, List.filterMap_map, fenced,
    ← List.filterMap_eq_map]
  refine List.filterMap_congr fun c hc => ?_
  rw [Function.comp_apply, ofNode_of_isFenced (List.mem_filter.mp hc).2]
  rfl

variable {ns : Namespace} {d : Document} {c : Code} {e : Edit}

/-- A fence that is edited can be written anew. -/
theorem exists_rewritable (hwords : (ofMarkdown source).FillsWords ns)
    (h : RewritableTemplates source) (he : filledEdit? ns source c = some e) :
    ∃ old, Text.slice source.toList c.span = some old ∧
      e = ⟨c.span, Layout.writeFence (.ofText old c.value) c.tells.2.toList
        (filledBody ns source c).toList
        (Layout.lineEnding none source.toList)⟩ ∧
      (∀ d ∈ (filledBody ns source c).toList, Text.isLetterOrNumber d = true) ∧
      (Fence.ofParsed c.tells.1 c.tells.2 (String.ofList c.value)).Rewritable source.toList
        c.span old := by
  have hfills : FillsInline (fun text => ∀ d ∈ text, Text.isLetterOrNumber d = true) ns
    (ofMarkdown source) := hwords
  have htemplates : EachTemplate source fun f span old => f.Rewritable source.toList span old := h
  exact htemplates.exists_of_filledEdit? hfills he

/-- What is written in the place of a template restates it. -/
theorem exists_restates (hwords : (ofMarkdown source).FillsWords ns)
    (h : RewritableTemplates source) (he : filledEdit? ns source c = some e) {old : List Char}
    (hold : Text.slice source.toList c.span = some old) : ∃ info content ending,
      Restates old c e info content ending := by
  obtain ⟨old', hold', rfl, hcontent, hrewritable⟩ := exists_rewritable hwords h he
  obtain rfl : old' = old := Option.some.inj (hold'.symm.trans hold)
  have htells := Markdown.exists_of_openingTells hrewritable.tells
  have hparsed :
    (Fence.ofParsed c.tells.1 c.tells.2 (String.ofList c.value)).parsedBody.toList = c.value :=
    String.toList_ofList
  rw [hparsed] at htells
  exact ⟨_, _, _, rfl, rfl, hrewritable.unbroken,
    fun d hd => Layout.inert_of_isLetterOrNumber (hcontent d hd), Layout.isEnding_lineEnding _ _,
    hrewritable.noReturn, htells⟩

/-- Closed fences are filled, and say what they said. -/
def restating (ns : Namespace) (source : String) : Revision where
  edit? := filledEdit? ns source
  opened _ _ _ := True
  ended _ isOpen := isOpen = false
  same c c' := c'.tells = c.tells

theorem edit?_restating (ns : Namespace) (source : String) :
    (restating ns source).edit? = filledEdit? ns source := by rw [restating]

theorem restating_sound (hwords : (ofMarkdown source).FillsWords ns)
    (h : RewritableTemplates source) :
    (restating ns source).Sound source.toList := by
  refine ⟨fun _ htells _ => htells, fun he => ?_, ?_⟩
  · rw [edit?_restating] at he
    exact (span_of_filledEdit? he).1
  intro o p d stop op first inner more text left front opening tail e hfence hopens hflat he hslice
    _
  rw [edit?_restating] at he
  rcases hfence.rest.ends with ⟨lines, last, after, rfl, rfl, -, hcs, hclosed⟩ | hopen
  · have hencloses := hfence.encloses hopens hflat
    obtain ⟨margin, run, hparts⟩ := hopens.exists_parts hclosed hcs
    rw [hparts.flat_eq] at hflat
    have htail := List.append_cancel_left (List.append_cancel_right hflat)
    obtain ⟨info, content, ending, hrestates⟩ := exists_restates hwords h he hslice
    rw [← htail] at hrestates hencloses
    obtain ⟨new, op', text', hnew, htells⟩ := hparts.exists_restated hencloses hrestates (by simp)
    exact ⟨new, op', e.content, text', hnew, fun d' => by simpa [restating] using htells⟩
  · have hended : _ = false := hfence.ended
    rw [hopen] at hended
    cases hended

/-- **What fences say is kept** when words are put in the place of templates that can be written
anew. -/
theorem keepsInfos_of_rewritable (hwords : (ofMarkdown source).FillsWords ns)
    (hfill : (ofMarkdown source).fill ns .standard = .ok d) (h : RewritableTemplates source) :
    d.KeepsInfos source := by
  have hedited : ∀ c, (filledEdit? ns source c).isSome = true →
      Markdown.isFenceOpen source.toList (c.span.start + 1) = true ∧
        Markdown.isFenceOpen source.toList c.span.stop = false := by
    intro c hc
    obtain ⟨e, he⟩ := Option.isSome_iff_exists.mp hc
    obtain ⟨old, -, -, -, hrewritable⟩ := exists_rewritable hwords h he
    exact ⟨hrewritable.opened, hrewritable.closed⟩
  have hsame := forall₂_fenced (restating_sound hwords h) (edit?_restating ns source) ?_ ?_ hfill
  · rw [KeepsInfos, infos_ofMarkdown, infos_ofMarkdown, ← List.forall₂_eq_eq_eq,
      List.forall₂_map_left_iff, List.forall₂_map_right_iff]
    refine hsame.flip.imp fun c c' htells => ?_
    simpa [restating] using htells
  · intro c hc
    rw [edit?_restating] at hc
    obtain ⟨op, value, ending, hleaf⟩ := Markdown.Leaf.exists_of_isFence (hedited c hc).1
    exact ⟨op, value, ending, hleaf, trivial⟩
  · intro c hc
    rw [edit?_restating] at hc
    exact (hedited c hc).2

/-- A quoted fence in a list, with an escape and a character reference behind its marker, and a
fence that is never closed and has nothing to evaluate. -/
def escapedTemplate : String :=
  "- > ~~~~ a\\*b c=&#49;\n  > echo(\"x\")\n  >   ~~~~\n\n``` md\n"

theorem keepsInfos_escapedTemplate :
    (ofMarkdown escapedTemplate).FillsWords ⟨[("echo", Layout.echo)], []⟩ ∧
      RewritableTemplates escapedTemplate ∧
      ∃ d, (ofMarkdown escapedTemplate).fill ⟨[("echo", Layout.echo)], []⟩ .standard = .ok d ∧
        d.render .standard = "- > ~~~~a*b c=1\n  >   x\n  >   ~~~~\n\n``` md\n" ∧
        d.KeepsInfos escapedTemplate := by
  have hwords : (ofMarkdown escapedTemplate).FillsWords ⟨[("echo", Layout.echo)], []⟩ := by
    intro body hbody hblank
    have hbodies : (ofMarkdown escapedTemplate).root.bodies = ["echo(\"x\")", ""] := by
      decide +kernel
    rw [hbodies] at hbody
    rcases List.mem_cons.mp hbody with rfl | hbody
    · refine ⟨"x", Layout.eq_ok_of_toOption (by decide +kernel), ?_⟩
      intro c hc
      obtain rfl : c = 'x' := by simpa using hc
      decide
    · obtain rfl := List.mem_singleton.mp hbody
      cases hblank
  have hrewritable : RewritableTemplates escapedTemplate := by decide +kernel
  have hfilled :
    (((ofMarkdown escapedTemplate).fill ⟨[("echo", Layout.echo)], []⟩ .standard).toOption.map
      fun d => d.render .standard) = some "- > ~~~~a*b c=1\n  >   x\n  >   ~~~~\n\n``` md\n" := by
    decide +kernel
  obtain ⟨d, hfill, hrender⟩ := Option.map_eq_some_iff.mp hfilled
  exact ⟨hwords, hrewritable, d, Layout.eq_ok_of_toOption hfill, hrender,
    keepsInfos_of_rewritable hwords (Layout.eq_ok_of_toOption hfill) hrewritable⟩

end Document

end LiveDoc
