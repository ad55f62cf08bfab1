/-!
# Listings of long texts

A list of rows is shown whole while it is short, and by its first and last rows once it is long. A
checksum over all rows tells long lists with equal ends apart.
-/

namespace FormalLogic.Text

/-- The number of rows up to which a list is shown whole. -/
def listingLimit : Nat := 30

/-- The number of rows shown at each end of a longer list. -/
def listingEnds : Nat := 8

/-- A polynomial checksum of a text over its code points. -/
def checksum (s : String) : Nat :=
  s.toList.foldl (fun h c => (h * 31 + c.toNat) % 1000000007) 0

/-- What is shown of a list of rows. -/
structure Listing where
  /-- The number of all rows. -/
  count : Nat
  /-- The checksum of all rows, joined by line breaks. -/
  check : Nat
  /-- The rows shown. -/
  shown : List String
  deriving DecidableEq, Repr

/-- Lists rows, leaving out the middle of a long list. -/
def Listing.ofRows (rows : List String) : Listing where
  count := rows.length
  check := checksum ("\n".intercalate rows)
  shown :=
    if rows.length ≤ listingLimit then rows
    else rows.take listingEnds ++ ["..."] ++ rows.drop (rows.length - listingEnds)

end FormalLogic.Text
