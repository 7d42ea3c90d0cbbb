import Stencil.Text.CaseTable

/-!
Upper and lower case of texts. A character may become several, and the Greek sigma has a lower case
form of its own at the end of a word.
-/

namespace Stencil.Text

def inRanges (ranges : List (Nat × Nat)) (c : Char) : Bool :=
  ranges.any fun (lo, hi) => lo ≤ c.toNat && c.toNat ≤ hi

private def CaseRun.holds (r : CaseRun) (n : Nat) : Bool :=
  r.first ≤ n && n ≤ r.last && (n - r.first) % r.step == 0

private def mapped (expansions : List (Nat × List Nat)) (runs : List CaseRun) (c : Char) :
    List Char :=
  match expansions.lookup c.toNat with
  | some points => points.map Char.ofNat
  | none =>
    match runs.find? (·.holds c.toNat) with
    | some r => [Char.ofNat (c.toNat + r.shift).toNat]
    | none => [c]

def upperChar (c : Char) : List Char := mapped upperExpansions upperRuns c

def lowerChar (c : Char) : List Char := mapped lowerExpansions lowerRuns c

def upper (s : String) : String := String.ofList (s.toList.flatMap upperChar)

-- Does a cased letter come next, past characters that do not break a word?
private def letterFollows (cs : List Char) : Bool :=
  (cs.dropWhile (inRanges caseIgnorableRanges)).head?.any (inRanges casedRanges)

-- `before` holds the characters already passed, last first.
private def lowerChars : List Char → List Char → List Char
  | _, [] => []
  | before, c :: cs =>
    let here :=
      if c = 'Σ' then [if letterFollows before && !letterFollows cs then 'ς' else 'σ']
      else lowerChar c
    here ++ lowerChars (c :: before) cs

def lower (s : String) : String := String.ofList (lowerChars [] s.toList)

end Stencil.Text
