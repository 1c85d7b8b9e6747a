import Pinpoint.BinaryName.Rank
import Pinpoint.ClassFile.OffsetIndex

namespace Pinpoint

/-- The ranks of a unit's classes and, where the class file has been read, its offset index. -/
structure UnitFacts where
  ranks : RankIndex
  offsets : Option OffsetIndex

namespace UnitFacts

/-- What is known of a unit whose class file has not been read. -/
def ofRanks (ranks : RankIndex) : UnitFacts := ⟨ranks, none⟩

/-- The facts with an offset index. -/
def withIndex (facts : UnitFacts) (index : OffsetIndex) : UnitFacts :=
  { facts with offsets := some index }

/-- A diagnostic text, which tells whether the class file has been read. -/
def inspect (facts : UnitFacts) : String :=
  "UnitContext \x7b offsets: " ++ (if facts.offsets.isSome then "true" else "false") ++ ", .. \x7d"

end UnitFacts

end Pinpoint
