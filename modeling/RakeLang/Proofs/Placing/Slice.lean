import Mathlib.Data.String.Basic
import RakeLang.Proofs.Placing.Token

/-!
# The text of a span

A span counts bytes, and what it covers can be cut out of the text.  Between two places of a text
that is the text between them, so that a token of a text is cut out by its own span.

## Main definitions

* `RakeLang.Span.slice` — the stretch of a text that a span covers.

## Main results

* `RakeLang.Span.slice_between` — what lies between two places of a text.
* `RakeLang.Token.StandsIn.slice_eq` — the span of a token covers the text of the token.
-/

set_option relaxedAutoImplicit false
set_option autoImplicit false

namespace RakeLang

/-- The stretch of the text from the byte where the span begins to the byte where it ends. -/
def Span.slice (source : String) (s : Span) : String :=
  String.Pos.Raw.extract source ⟨s.start⟩ ⟨s.stop⟩

/-- The byte offset behind a text is the number of its bytes. -/
lemma Place.offset_after_start_eq (cs : List Char) :
    (Place.start.after cs).offset = String.utf8Len cs := by
  rw [Place.offset_after_start, String.utf8ByteSize_ofList]

/-- The span between two places of a text covers the text between them. -/
theorem Span.slice_between {source : String} {before text after : List Char}
    (h : source.toList = before ++ text ++ after) :
    (between (Place.start.after before) (Place.start.after (before ++ text))).slice source
      = String.ofList text := by
  have hsource : source = String.ofList (before ++ text ++ after) := by
    rw [← h, String.ofList_toList]
  unfold slice between
  rw [Place.offset_after_start_eq, Place.offset_after_start_eq, String.utf8Len_append, hsource]
  exact String.extract_of_valid before text after

/-- The span of a token of a text covers the text of the token. -/
theorem Token.StandsIn.slice_eq {source : String} {t : Token} (h : t.StandsIn source.toList) :
    t.span.slice source = t.lexeme := by
  obtain ⟨before, after, hsource, hspan⟩ := h
  rw [hspan, Span.slice_between hsource, String.ofList_toList]

end RakeLang
