import CodeSplit.Text.CaseTable

/-!
Lower-casing of texts. Each letter is replaced by its lower-case form; the capital sigma becomes a
final sigma at the end of a word.
-/
namespace CodeSplit.Text

def lowerLetter (c : Char) : List Char :=
  if c.toNat = 0x130 then ['i', Char.ofNat 0x307]
  else
    match caseRuns.find? (·.covers c.toNat) with
    | some run => [Char.ofNat (Int.ofNat c.toNat + run.shift).toNat]
    | none => [c]

/-- Whether a cased letter comes first, after characters that are passed over. -/
def startsCased (text : List Char) : Bool :=
  match text.dropWhile isPassedOver with
  | c :: _ => isCased c
  | [] => false

/-- Lower-cases `text`, which follows `before` (last character first). -/
def lowerFrom (before : List Char) : List Char → List Char
  | [] => []
  | c :: rest =>
    let lower :=
      if c = 'Σ' then
        if startsCased before && !startsCased rest then ['ς'] else ['σ']
      else lowerLetter c
    lower ++ lowerFrom (c :: before) rest

def lowerCase (text : String) : String := String.ofList (lowerFrom [] text.toList)

end CodeSplit.Text
