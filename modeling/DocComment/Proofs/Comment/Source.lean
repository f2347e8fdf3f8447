import DocComment.Proofs.Comment.Extract
import DocComment.Proofs.Text.Utf8
import DocComment.Reader

/-! Comments read from a file are the comments of the text that the file holds. Decoding gives
the text back, the comments are the same but for their line endings, and these are converted
in any case where the decoration is taken off. -/

namespace DocComment.Comment

open Text

theorem undecorate_withBreaks (comment : String) :
    undecorate (withBreaks comment) = undecorate comment := by
  simp only [undecorate, bareLines, withBreaks, String.toList_ofList, unifyBreaks_unifyBreaks]

theorem sourceText_ofText (path text : String) :
    sourceText path (.ofText text) = .ok (withBreaks text) := by
  simp only [sourceText, SourceFile.ofText, Utf8.decode_encode]
  rfl

theorem ofSource_ofText (path text : String) :
    ofSource path (.ofText text) = .ok ((extract text).map withBreaks) := by
  rw [ofSource, sourceText_ofText, ← extract_withBreaks]
  rfl

end DocComment.Comment

namespace DocComment.Reader

open Comment

theorem read_withBreaks (reader : Reader) (comment : String) :
    reader.read (withBreaks comment) = reader.read comment := by
  simp only [read, undecorate_withBreaks]

theorem readAll_withBreaks (reader : Reader) (comments : List String) :
    reader.readAll (comments.map withBreaks) = reader.readAll comments := by
  rw [readAll, readAll, List.map_map]
  refine List.map_congr_left fun comment _ => ?_
  rw [Function.comp_apply, read_withBreaks]

/-- A file that holds a text gives the documents of the comments of the text, and its comments
are those of the text with converted breaks. -/
theorem readSource_ofText (reader : Reader) (path text : String) :
    reader.readSource path (.ofText text) = .ok (reader.readAll (extract text)) ∧
      ofSource path (.ofText text) = .ok ((extract text).map withBreaks) := by
  refine ⟨?_, ofSource_ofText path text⟩
  rw [readSource, ofSource_ofText, ← reader.readAll_withBreaks]
  rfl

end DocComment.Reader
