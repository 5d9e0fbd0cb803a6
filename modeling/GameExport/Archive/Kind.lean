/-! # Kinds of archives

The extension of a path tells whether it is an archive. Case matters.
-/

namespace GameExport

inductive ArchiveKind where
  | zip
  | apk
  | xapk
  deriving DecidableEq

namespace ArchiveKind

def ofExtension (extension : String) : Option ArchiveKind :=
  if extension = "zip" then some .zip
  else if extension = "apk" then some .apk
  else if extension = "xapk" then some .xapk
  else none

/-- Bundles of packages are known but stay packed. -/
def isUnpacked : ArchiveKind → Bool
  | .zip => true
  | .apk => true
  | .xapk => false

end ArchiveKind

end GameExport
