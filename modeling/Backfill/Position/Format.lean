import Backfill.Json.Format
import Backfill.Position.Listing

/-! Positions and sets of positions stand in documents as their texts. -/
namespace Backfill
open Json (Format)

instance : Format Position where
  write p := .text p.text
  read? r := (Format.read? r).bind fun s => (Position.parse s).toOption

instance : Format PositionSet where
  write s := .text s.text
  read? r := (Format.read? r).bind fun s => (PositionSet.parse s).toOption

end Backfill
