import LiveDoc.Proofs.Layout.FilledEdits
import LiveDoc.Proofs.Layout.Refilled

/-!
# What a written document keeps in its fences

A fence is written with a margin in front of its lines that is read off its old text. Where this
margin is aligned with the fence, all containers around it taken into account, the fence holds what
was written when it is read again (`Fence.Fillable`). So the fences of the written document hold
those of the filled one, whatever is in them, and whether a line closed them before or not
(`Document.keepsBodies_of_fillable`).
-/

namespace LiveDoc

open Layout (FenceShape InlineOnly KeepsBodies PlainInfos SameBody)
open Markdown (Code FenceOpening Outline Reader Revision fenced)
open Text (Span byteLength)

namespace Markdown

/-- The opening of the fenced code that is open. -/
def Leaf.opening? : Leaf → Option FenceOpening
  | .fence op _ _ => some op
  | _ => Option.none

theorem Leaf.exists_of_opening? {leaf : Leaf} {op : FenceOpening} (h : leaf.opening? = some op) :
    ∃ value ending, leaf = .fence op value ending := by
  cases leaf with
  | fence op' value ending =>
    obtain rfl := Option.some.inj h
    exact ⟨value, ending, rfl⟩
  | _ => cases h

end Markdown

/-- A fence that holds what it is filled with. The margin that it is written with is aligned with
it, and it does not end with a carriage return alone, unless it ends with the text. -/
structure Fence.Fillable (source : List Char) (f : Fence) (span : Span) (old : List Char) :
    Prop where
  aligned : ∃ op ∈ (Reader.upTo source (span.start + 1)).leaf.opening?,
    Outline.Aligned (Reader.upTo source (span.start + 1)).outline.containers op.indent
      (FenceShape.ofText old f.parsedBody.toList).margin
  noReturn : old.getLast? ≠ some '\r' ∨ span.stop = byteLength source

instance (source : List Char) (f : Fence) (span : Span) (old : List Char) :
    Decidable (f.Fillable source span old) :=
  decidable_of_iff
    ((∃ op ∈ (Reader.upTo source (span.start + 1)).leaf.opening?,
      Outline.Aligned (Reader.upTo source (span.start + 1)).outline.containers op.indent
        (FenceShape.ofText old f.parsedBody.toList).margin) ∧
      (old.getLast? ≠ some '\r' ∨ span.stop = byteLength source))
    ⟨fun ⟨h₁, h₂⟩ => ⟨h₁, h₂⟩, fun ⟨h₁, h₂⟩ => ⟨h₁, h₂⟩⟩

namespace Document

/-- Every template of a text stands in a fence that holds what it is filled with. -/
def FillableTemplates (source : String) : Prop :=
  EachTemplate source fun f span old => f.Fillable source.toList span old

instance (source : String) : Decidable (FillableTemplates source) :=
  inferInstanceAs (Decidable (EachTemplate source _))

variable {source : String}

/-- The fences of a text hold what its fenced code does. -/
theorem bodies_ofMarkdown (source : String) : (ofMarkdown source).root.bodies =
    (fenced source.toList (codes source)).map fun c => String.ofList c.value := by
  rw [Tree.bodies, ofMarkdown, Tree.fences_ofMarkdown, List.map_map, fenced]
  refine List.map_congr_left fun c hc => ?_
  rw [Function.comp_apply, ofNode_of_isFenced (List.mem_filter.mp hc).2]
  rfl

variable {ns : Namespace} {d : Document}

/-- Fences are filled, and hold what they are filled with. -/
def refilling (ns : Namespace) (source : String) : Revision where
  edit? := filledEdit? ns source
  opened c cs indent := ∀ old, Text.slice source.toList c.span = some old →
    Outline.Aligned cs indent (FenceShape.ofText old c.value).margin ∧
      (old.getLast? ≠ some '\r' ∨ c.span.stop = byteLength source.toList)
  ended _ _ := True
  same c c' := Tree.ofNode source.toList c.node ∈ (ofMarkdown source).root.fences →
    SameBody (filledBody ns source c) (String.ofList c'.value)

theorem edit?_refilling (ns : Namespace) (source : String) :
    (refilling ns source).edit? = filledEdit? ns source := by rw [refilling]

/-- What fences say that are edited are letters. -/
theorem isAlpha_of_filledEdit? {kind : List Char → Prop} (hinfos : PlainInfos (ofMarkdown source))
    (hfills : FillsInline kind ns (ofMarkdown source)) {c : Code} {e : Layout.Edit}
    (he : filledEdit? ns source c = some e) : ∀ a ∈ c.tells.2.toList, a.isAlpha = true := by
  have hmem := (exists_of_filledEdit? hfills he).1
  have htree := ofNode_of_isFenced (isFenced_of_mem_fences hmem)
  rw [htree] at hmem
  exact hinfos _ hmem (.ofParsed c.tells.1 c.tells.2 (String.ofList c.value)) rfl

theorem refilling_sound (hinfos : PlainInfos (ofMarkdown source))
    (hinline : InlineOnly ns (ofMarkdown source)) :
    (refilling ns source).Sound source.toList := by
  have hfills : FillsInline (fun text => '\r' ∉ text) ns (ofMarkdown source) := hinline
  refine ⟨fun {c c'} he _ hvalue hmem => ?_, fun he => ?_, ?_⟩
  · rw [edit?_refilling] at he
    rw [filledBody_of_none hfills hmem he, hvalue]
    exact Or.inl rfl
  · rw [edit?_refilling] at he
    exact (span_of_filledEdit? he).1
  -- a fence that is filled is a fence again
  intro o p d stop op first inner more text left front opening tail e hfence hopens hflat he hslice
    hmore
  rw [edit?_refilling] at he
  obtain ⟨-, -, hcontent, old, hold, rfl⟩ := exists_of_filledEdit? hfills he
  obtain rfl : old = opening ++ tail := Option.some.inj (hold.symm.trans hslice)
  obtain ⟨haligned, hreturn⟩ := hfence.opened _ hslice
  obtain ⟨ending, hleaf⟩ := hfence.opens
  obtain ⟨new, op', fence, text', hnew, hsame⟩ :=
    hopens.exists_refilled (hfence.encloses hopens hflat)
    (Outline.settle_of_opening hleaf) hfence.rest.blank rfl haligned (hreturn.imp_right hmore)
    (isAlpha_of_filledEdit? hinfos hfills he) hcontent (Layout.isEnding_lineEnding _ _)
  rw [String.ofList_toList] at hsame
  exact ⟨new, op', fence, text', hnew, fun _ _ => hsame⟩

/-- **Fences hold what they were filled with** when the written document is read again, if the
margins of all templates are aligned with their fences. -/
theorem keepsBodies_of_fillable (hinfos : PlainInfos (ofMarkdown source))
    (hinline : InlineOnly ns (ofMarkdown source))
    (hfill : (ofMarkdown source).fill ns .standard = .ok d) (h : FillableTemplates source) :
    KeepsBodies d := by
  have hfills : FillsInline (fun text => '\r' ∉ text) ns (ofMarkdown source) := hinline
  have hsame := forall₂_fenced (refilling_sound hinfos hinline) (edit?_refilling ns source) ?_
    (fun _ _ => trivial) hfill
  · rw [KeepsBodies, bodies_of_fill hfill, bodies_ofMarkdown, List.forall₂_map_left_iff,
      List.forall₂_map_right_iff]
    have hmem : ∀ c ∈ fenced source.toList (codes source),
        Tree.ofNode source.toList c.node ∈ (ofMarkdown source).root.fences := by
      intro c hc
      obtain ⟨hcode, hfenced⟩ := List.mem_filter.mp hc
      exact (mem_fences_iff hcode).mpr hfenced
    refine ((List.forall₂_and_left _ _).mpr ⟨hmem, hsame⟩).imp fun c c' hboth => ?_
    obtain ⟨hfence, hbody⟩ := hboth
    have hshift : filledBody ns source (c.shift 0) = filledBody ns source c := by
      rw [filledBody, node_shift_zero, filledBody]
    rw [← hshift]
    exact hbody (by rwa [node_shift_zero])
  · intro c hc
    rw [edit?_refilling] at hc
    obtain ⟨e, he⟩ := Option.isSome_iff_exists.mp hc
    obtain ⟨old, hold, -, -, hfillable⟩ := h.exists_of_filledEdit? hfills he
    obtain ⟨op, hop, haligned⟩ := hfillable.aligned
    obtain ⟨value, ending, hleaf⟩ := Markdown.Leaf.exists_of_opening? hop
    refine ⟨op, value, ending, hleaf, fun old' hold' => ?_⟩
    obtain rfl : old' = old := Option.some.inj (hold'.symm.trans hold)
    have hparsed :
      (Fence.ofParsed c.tells.1 c.tells.2 (String.ofList c.value)).parsedBody.toList = c.value :=
      String.toList_ofList
    rw [hparsed] at haligned
    exact ⟨haligned, hfillable.noReturn⟩

/-- Two fences that no line closes, one of them quoted in a list. What they are filled with holds
empty lines, and markers as long as theirs. -/
def openTemplates : String :=
  "1. > ```rs\n   > echo(\"a\\n\\n  ```\")\n\n~~~\necho(\"\\n~~~\\n\")\n\n"

theorem keepsBodies_openTemplates :
    PlainInfos (ofMarkdown openTemplates) ∧
      InlineOnly ⟨[("echo", Layout.echo)], []⟩ (ofMarkdown openTemplates) ∧
      FillableTemplates openTemplates ∧
      ∃ d, (ofMarkdown openTemplates).fill ⟨[("echo", Layout.echo)], []⟩ .standard = .ok d ∧
        d.render .standard =
          "1. > ````rs\n   > a\n   >\n   >   ```\n   > ````\n\n~~~~\n\n~~~\n~~~~\n" ∧
            KeepsBodies d := by
  have hinfos : PlainInfos (ofMarkdown openTemplates) := by
    have hfences : (ofMarkdown openTemplates).root.fences.all
        (fun n => n.fence?.all fun f => f.info.toList.all Char.isAlpha) = true := by decide +kernel
    intro n hn f hf c hc
    have hall := List.all_eq_true.mp hfences n hn
    rw [Option.mem_def.mp hf] at hall
    exact List.all_eq_true.mp hall c hc
  have hinline : InlineOnly ⟨[("echo", Layout.echo)], []⟩ (ofMarkdown openTemplates) := by
    intro body hbody _
    have hbodies : (ofMarkdown openTemplates).root.bodies =
        ["echo(\"a\\n\\n  ```\")", "echo(\"\\n~~~\\n\")\n"] := by decide +kernel
    rw [hbodies] at hbody
    rcases List.mem_cons.mp hbody with rfl | hbody
    · exact ⟨"a\n\n  ```", Layout.eq_ok_of_toOption (by decide +kernel), by decide⟩
    · obtain rfl := List.mem_singleton.mp hbody
      exact ⟨"\n~~~\n", Layout.eq_ok_of_toOption (by decide +kernel), by decide⟩
  have hfillable : FillableTemplates openTemplates := by decide +kernel
  have hfilled :
    (((ofMarkdown openTemplates).fill ⟨[("echo", Layout.echo)], []⟩ .standard).toOption.map
      fun d => d.render .standard) =
        some "1. > ````rs\n   > a\n   >\n   >   ```\n   > ````\n\n~~~~\n\n~~~\n~~~~\n" := by
    decide +kernel
  obtain ⟨d, hfill, hrender⟩ := Option.map_eq_some_iff.mp hfilled
  exact ⟨hinfos, hinline, hfillable, d, Layout.eq_ok_of_toOption hfill, hrender,
    keepsBodies_of_fillable hinfos hinline (Layout.eq_ok_of_toOption hfill) hfillable⟩

end Document

end LiveDoc
