/-!
# Dotted names

A dotted name consists of segments with dots between them.
-/

namespace NominalTypes.Text

/-- The segments of a dotted name. A name without dots is its own segment, also if it is empty. -/
def segments (name : String) : List String :=
  (name.toList.splitOn '.').map String.ofList

/-- Segments without dots are those of the name that they form. -/
theorem segments_intercalate {names : List String} (hne : names ≠ [])
    (hdots : ∀ name ∈ names, '.' ∉ name.toList) : segments (".".intercalate names) = names := by
  have hchars : ∀ cs ∈ names.map String.toList, '.' ∉ cs := by
    simpa only [List.forall_mem_map] using hdots
  have hjoin : (".".intercalate names).toList = ['.'].intercalate (names.map String.toList) :=
    String.toList_intercalate
  rw [segments, hjoin, List.splitOn_intercalate '.' hchars (by simpa using hne), List.map_map]
  simp only [Function.comp_def, String.ofList_toList, List.map_id']

end NominalTypes.Text
