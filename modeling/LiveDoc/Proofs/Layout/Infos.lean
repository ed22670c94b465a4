import LiveDoc.Proofs.Layout.Reparse
import LiveDoc.Text.Letter

/-!
# What a written document says behind the markers of its fences

A template that gives inline content leaves the language of its fence alone, so the fences of the
written document should name the languages that they named before, and say the same behind their
markers: `Document.KeepsInfos`.

* `decoded_info_written_raw` — this is not so in general: what a fence says is read with its escapes
  and character references replaced by what they mean, and is written as it was read.
-/

namespace LiveDoc

/-- What the fences of a tree say behind their markers, in document order: the language, and the
whole text. -/
def Tree.infos (t : Tree) : List (Option String × String) :=
  t.fences.filterMap fun n => n.fence?.map fun f => (f.language, f.info)

/-- Every template of a document gives plain content of letters and numbers. -/
def Document.FillsWords (ns : Namespace) (d : Document) : Prop :=
  ∀ body ∈ d.root.bodies, Text.isBlankText body.toList = false →
    ∃ content, Template.evaluate body (Template.environment ns .standard d.root) =
      .ok (.inline content) ∧ ∀ c ∈ content.toList, Text.isLetterOrNumber c = true

/-- The fences of a document say in its text what they said in the text it was read from. -/
def Document.KeepsInfos (source : String) (d : Document) : Prop :=
  (Document.ofMarkdown (d.render .standard)).root.infos = (Document.ofMarkdown source).root.infos

namespace Layout

/-! ## Escapes are not written again -/

/-- A fence whose language holds a backslash in front of punctuation, which is escaped. -/
def escapedInfo : String := "~~~ a\\\\_b\necho(\"a\")\n~~~\n"

/-- An escaped backslash is written without its escape, and escapes what stands behind it then. -/
theorem decoded_info_written_raw :
    ¬ ∀ (ns : Namespace) (source : String) (d : Document),
      (Document.ofMarkdown source).FillsWords ns →
      (Document.ofMarkdown source).fill ns .standard = .ok d → d.KeepsInfos source := by
  intro h
  have hwords : (Document.ofMarkdown escapedInfo).FillsWords ⟨[("echo", echo)], []⟩ := by
    intro body hbody _
    have hbodies : (Document.ofMarkdown escapedInfo).root.bodies = ["echo(\"a\")"] := by
      decide +kernel
    rw [hbodies] at hbody
    obtain rfl := List.mem_singleton.mp hbody
    refine ⟨"a", eq_ok_of_toOption (by decide +kernel), ?_⟩
    intro c hc
    obtain rfl : c = 'a' := by simpa using hc
    decide
  have hfilled :
    (((Document.ofMarkdown escapedInfo).fill ⟨[("echo", echo)], []⟩ .standard).toOption.map
      fun d => d.render .standard) = some "~~~a\\_b\na\n~~~\n" := by
    decide +kernel
  obtain ⟨d, hfill, hrender⟩ := Option.map_eq_some_iff.mp hfilled
  have hkeeps := h _ escapedInfo d hwords (eq_ok_of_toOption hfill)
  rw [Document.KeepsInfos, hrender] at hkeeps
  have hread : (Document.ofMarkdown "~~~a\\_b\na\n~~~\n").root.infos = [(some "a_b", "a_b")] := by
    decide +kernel
  have hinfos : (Document.ofMarkdown escapedInfo).root.infos = [(some "a\\_b", "a\\_b")] := by
    decide +kernel
  have hsame : [(some "a_b", "a_b")] = [(some "a\\_b", "a\\_b")] :=
    hread.symm.trans (hkeeps.trans hinfos)
  exact absurd hsame (by decide)

end Layout

end LiveDoc
