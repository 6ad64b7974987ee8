import Avant.Xml.RoundTrip
import Avant.Xml.Safe

/-!
# Parsing again what was parsed

A tree that the parser returns is `Named` and has at most 128 levels (`Xml/Safe.lean`), so it is
written and parsed again (`Xml/RoundTrip.lean`), without the white space in front of its texts. The
parser skips white space before it decodes references: in the tree of `<a>&#32;x</a>` there is
white space in front of the text, which `to_string` writes as it is and the next parse skips.

* `parse_again_iff`: what was parsed is written and parsed as itself exactly if no text of it starts
  with white space.
* `not_parse_again`: a document whose tree is not parsed again as itself.
-/

namespace Avant.Xml

open Avant.Lib Element

/-- What the parser returns. -/
theorem parse_fitting {str : Bytes} {e : Element} (h : parse str = .ok e) : Fitting maxDepth e := by
  obtain ⟨-, ⟨root, j, hresult, hroot⟩ | ⟨message, hresult⟩⟩ :=
    (parseDocument_safe str).ok_or_threw
  · rw [parse, hresult] at h
    obtain rfl : root = e := Except.ok.inj h
    exact hroot
  · rw [parse, hresult] at h
    cases h

/-- A tree that stripping does not change has no white space in front of a text. -/
theorem Named.trimmed {e : Element} (h : Named e) (hstripped : e.stripped = e) : Trimmed e := by
  induction h with
  | @mk name text attrs children hname hkeys hchildren ih =>
    rw [Element.stripped, strippedAll_eq_map] at hstripped
    obtain ⟨-, htext, -, hmap⟩ := Element.mk.inj hstripped
    have hsame : ∀ e ∈ children, e.stripped = e := by
      refine List.map_inj_left.mp (hmap.trans ?_)
      exact (List.map_id' children).symm
    exact .mk (dropWhile_eq_self.mp htext) fun e he => ih e he (hsame e he)

/-- **What was parsed is written and parsed again**, without the white space in front of its texts;
it is the same tree exactly if there is none. -/
theorem parse_again_iff {str : Bytes} {e : Element} (h : parse str = .ok e) :
    parse e.toString = .ok e.stripped ∧ (parse e.toString = .ok e ↔ Trimmed e) := by
  obtain ⟨hnamed, hlevels⟩ := parse_fitting h
  have hagain := parse_written hnamed hlevels
  refine ⟨hagain, fun hsame => ?_, fun htrimmed => ?_⟩
  · rw [hagain] at hsame
    exact hnamed.trimmed (Except.ok.inj hsame)
  · rw [hagain, htrimmed.stripped]

/-- The tree of a document with a declaration, white space, a value in apostrophes, a reference and
a child. -/
def parsedSample : Element :=
  .mk (ascii "a") (ascii "<x") ⟨[(ascii "k", ascii "1")], List.pairwise_singleton _ _⟩
    [.mk (ascii "b") [] .empty []]

theorem parse_again_sample :
    parse (ascii "<?xml version='1.0'?> <a k='1'> &lt;x<b/></a>") = .ok parsedSample ∧
      parse parsedSample.toString = .ok parsedSample := by
  have hparse : parse (ascii "<?xml version='1.0'?> <a k='1'> &lt;x<b/></a>") = .ok parsedSample :=
    rfl
  refine ⟨hparse, (parse_again_iff hparse).2.mpr (.mk (fun c hc => ?_) ?_)⟩
  · cases hc
    rfl
  · intro e he
    obtain rfl := List.mem_singleton.mp he
    exact .mk nofun nofun

/-- **Not every tree is parsed again as itself**: a blank that is written as a reference is part of
the text, and is skipped when it is written as a blank. -/
theorem not_parse_again :
    parse (ascii "<a>&#32;x</a>") = .ok (.mk (ascii "a") (ascii " x") .empty []) ∧
    (Element.mk (ascii "a") (ascii " x") .empty []).toString = ascii "<a> x</a>" ∧
    parse (ascii "<a> x</a>") = .ok (.mk (ascii "a") (ascii "x") .empty []) ∧
    parse (ascii "<a> x</a>") ≠ .ok (.mk (ascii "a") (ascii " x") .empty []) := by
  have hagain : parse (ascii "<a> x</a>") = .ok (.mk (ascii "a") (ascii "x") .empty []) := rfl
  refine ⟨rfl, rfl, hagain, fun h => ?_⟩
  rw [hagain] at h
  have htext := (Element.mk.inj (Except.ok.inj h)).2.1
  exact absurd htext (by decide)

end Avant.Xml
