import Mathlib.Data.List.Forall2
import LiveDoc.Layout.Document

/-!
# Reading a written document again

A document is written after its templates were filled in. The text is Markdown again, and its fences
should hold what was filled in: `KeepsBodies` says so.

* `closing_indent_enters_body` — this is not so in general: what stands before the marker on the old
  closing line is written in front of every line of the new body, also where the reader of Markdown
  leaves it in the body.
-/

namespace LiveDoc

/-- What stands in the fences of a tree, in document order. -/
def Tree.bodies (t : Tree) : List String := t.fences.map fun n => n.body?.getD ""

namespace Layout

/-- The text with a line feed for every carriage return with a line feed behind it. -/
def plainEnds : List Char → List Char
  | '\r' :: '\n' :: rest => '\n' :: plainEnds rest
  | c :: rest => c :: plainEnds rest
  | [] => []

/-- The bodies are the same up to the style of line ends and a final line end. -/
def SameBody (a b : String) : Prop :=
  plainEnds a.toList = plainEnds b.toList ∨ plainEnds a.toList ++ ['\n'] = plainEnds b.toList ∨
    plainEnds a.toList = plainEnds b.toList ++ ['\n']

instance (a b : String) : Decidable (SameBody a b) :=
  inferInstanceAs (Decidable (_ ∨ _ ∨ _))

/-- Every template of a document gives text for the body of its fence, without carriage returns. -/
def InlineOnly (ns : Namespace) (d : Document) : Prop :=
  ∀ body ∈ d.root.bodies, Text.isBlankText body.toList = false →
    ∃ content, Template.evaluate body (Template.environment ns .standard d.root) =
      .ok (.inline content) ∧ '\r' ∉ content.toList

/-- Every fence of a document says nothing but letters behind its marker. -/
def PlainInfos (d : Document) : Prop :=
  ∀ n ∈ d.root.fences, ∀ f ∈ n.fence?, ∀ c ∈ f.info.toList, c.isAlpha = true

/-- The fences of the written document hold what the fences of the document hold. -/
def KeepsBodies (d : Document) : Prop :=
  List.Forall₂ SameBody d.root.bodies (Document.ofMarkdown (d.render .standard)).root.bodies

/-! ## A closing line with indentation of its own -/

/-- The function that gives its argument back. -/
def echo : Function :=
  ⟨"echo", [⟨"text", none⟩], fun args =>
    match args.string "text" with
    | .ok s => .ok (.rendering (.inline s))
    | .error e => .error e⟩

/-- A fence whose closing line is indented, while its opening line is not. -/
def indentedClosing : Document := .ofMarkdown "```\necho(\"a\")\n  ```\n"

theorem eq_ok_of_toOption {α : Type} {x : Except Error α} {a : α} (h : x.toOption = some a) :
    x = .ok a := by
  cases x with
  | error e => cases h
  | ok b => exact congrArg Except.ok (Option.some.inj h)

/-- The body of a fence is indented when only its closing line was. -/
theorem closing_indent_enters_body :
    ¬ ∀ (ns : Namespace) (source : String) (d : Document),
      PlainInfos (.ofMarkdown source) → InlineOnly ns (.ofMarkdown source) →
      (Document.ofMarkdown source).fill ns .standard = .ok d → KeepsBodies d := by
  intro h
  have hinfos : PlainInfos indentedClosing := by
    have hfences : indentedClosing.root.fences.all
        (fun n => n.fence?.all fun f => f.info.toList.all Char.isAlpha) = true := by
      decide +kernel
    intro n hn f hf c hc
    have hall := List.all_eq_true.mp hfences n hn
    rw [Option.mem_def.mp hf] at hall
    exact List.all_eq_true.mp hall c hc
  have hinline : InlineOnly ⟨[("echo", echo)], []⟩ indentedClosing := by
    intro body hbody _
    have hbodies : indentedClosing.root.bodies = ["echo(\"a\")"] := by decide +kernel
    rw [hbodies] at hbody
    obtain rfl := List.mem_singleton.mp hbody
    exact ⟨"a", eq_ok_of_toOption (by decide +kernel), by decide⟩
  have hfilled : ((indentedClosing.fill ⟨[("echo", echo)], []⟩ .standard).toOption.map fun d =>
      (d.root.bodies, d.render .standard)) = some (["a"], "```\n  a\n  ```\n") := by
    decide +kernel
  obtain ⟨d, hfill, hd⟩ := Option.map_eq_some_iff.mp hfilled
  obtain ⟨hbodies, hrender⟩ := Prod.mk.inj hd
  have hkeeps := h _ _ d hinfos hinline (eq_ok_of_toOption hfill)
  have hread : (Document.ofMarkdown "```\n  a\n  ```\n").root.bodies = ["  a"] := by decide +kernel
  rw [KeepsBodies, hbodies, hrender, hread] at hkeeps
  cases hkeeps with
  | cons hsame _ => exact absurd hsame (by decide)

end Layout

end LiveDoc
