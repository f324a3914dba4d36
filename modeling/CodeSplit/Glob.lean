import CodeSplit.Digest

/-!
Glob patterns over bytes: `*` within a path segment, `**` across segments, `?`, character classes,
alternatives in braces, escapes, and leading `!` for negation. Matching runs a machine that goes
back to the last wildcard when a byte does not fit.
-/
namespace CodeSplit.Glob

/-- A place in the pattern and in the path to go back to; none if `path` is zero. -/
structure Mark where
  glob : Nat := 0
  path : Nat := 0
  deriving DecidableEq, Repr

structure Cursor where
  glob : Nat := 0
  path : Nat := 0
  wild : Mark := {}
  star : Mark := {}
  deriving DecidableEq, Repr

/-- `braces` holds the cursors at the open braces, innermost first; `longest` is the farthest that
an alternative has come. -/
structure State where
  cursor : Cursor := {}
  braces : List Cursor := []
  longest : Nat := 0
  deriving DecidableEq, Repr

inductive Verdict where
  | matched
  | mismatched
  | malformed
  deriving DecidableEq, Repr

inductive Step where
  | go (state : State)
  | stop (verdict : Verdict)

inductive Skip where
  | malformed
  | comma
  | closed
  deriving DecidableEq

def code (c : Char) : UInt8 := UInt8.ofNat c.toNat

def braceLimit : Nat := 10

section Machine

variable (glob path : Array UInt8)

def globIs (i : Nat) (c : Char) : Bool := glob[i]? == some (code c)

def pathIs (i : Nat) (c : Char) : Bool := path[i]? == some (code c)

/-- Passes over further `/**` after a globstar. -/
def skipGlobstars : (fuel : Nat) → Nat → Nat
  | 0, i => i
  | fuel + 1, i =>
    if globIs glob i '/' && globIs glob (i + 1) '*' && globIs glob (i + 2) '*' then
      skipGlobstars fuel (i + 3)
    else i

/-- The byte that stands at `i` once escapes are undone, and the place of its last byte. -/
def unescape? (i : Nat) : Option (UInt8 × Nat) :=
  match glob[i]? with
  | none => none
  | some c =>
    if c = code '\\' then
      match glob[i + 1]? with
      | none => none
      | some e =>
        let plain :=
          if e = code 'b' then 0x08
          else if e = code 'n' then 0x0a
          else if e = code 'r' then 0x0d
          else if e = code 't' then 0x09
          else e
        some (plain, i + 1)
    else some (c, i)

/-- Moves to the end of the enclosing braces, or behind the next comma in them. -/
def skipBraces (stopAtComma : Bool) : (fuel : Nat) → (i depth : Nat) → (inClass : Bool) → Skip × Nat
  | 0, i, _, _ => (.malformed, i)
  | fuel + 1, i, depth, inClass =>
    if depth = 0 then (.closed, i)
    else
      match glob[i]? with
      | none => (.malformed, i)
      | some c =>
        if c = code '\x7b' && !inClass then skipBraces stopAtComma fuel (i + 1) (depth + 1) inClass
        else if c = code '\x7d' && !inClass then
          skipBraces stopAtComma fuel (i + 1) (depth - 1) inClass
        else if c = code ',' && stopAtComma && depth == 1 && !inClass then (.comma, i + 1)
        else if c = code '[' && !inClass then skipBraces stopAtComma fuel (i + 1) depth true
        else if c = code '*' && !inClass then
          if globIs glob (i + 1) '*' then
            skipBraces stopAtComma fuel (skipGlobstars glob glob.size (i + 2)) depth inClass
          else skipBraces stopAtComma fuel (i + 1) depth inClass
        else if c = code ']' then skipBraces stopAtComma fuel (i + 1) depth false
        else if c = code '\\' then skipBraces stopAtComma fuel (i + 2) depth inClass
        else skipBraces stopAtComma fuel (i + 1) depth inClass

def skipFrom (stopAtComma : Bool) (i : Nat) : Skip × Nat :=
  skipBraces glob stopAtComma (glob.size + 2) i 1 false

/-- Reads the members of a class from `i`. Gives whether `ch` is among them and the place of the
closing bracket; none if an escape or the class has no end. -/
def classMembers? (ch : UInt8) : (fuel : Nat) → (i : Nat) → (first found : Bool) →
    Option (Bool × Nat)
  | 0, _, _, _ => none
  | fuel + 1, i, first, found =>
    match glob[i]? with
    | none => none
    | some c =>
      if !first && c = code ']' then some (found, i)
      else
        match unescape? glob i with
        | none => none
        | some (low, last) =>
          let i := last + 1
          if globIs glob i '-' && decide (i + 1 < glob.size) && !globIs glob (i + 1) ']' then
            match unescape? glob (i + 1) with
            | none => none
            | some (high, last) =>
              classMembers? ch fuel (last + 1) false (found || (low ≤ ch && ch ≤ high))
          else classMembers? ch fuel i false (found || ch == low)

/-- Leaves the innermost braces with the farthest place that an alternative reached. -/
def leaveBraces (s : State) : State :=
  match s.braces with
  | [] => s
  | top :: rest =>
    { cursor := { s.cursor with path := s.longest, wild := top.wild, star := top.star }
      braces := rest
      longest := if rest.isEmpty then 0 else s.longest }

def canReturn (c : Cursor) : Bool := decide (0 < c.wild.path) && decide (c.wild.path ≤ path.size)

def goBack (c : Cursor) : Cursor := { c with glob := c.wild.glob, path := c.wild.path }

/-- No byte fits: go back to the last wildcard, or try the next alternative, or give up. -/
def retreat (s : State) : Step :=
  if canReturn path s.cursor then .go { s with cursor := goBack s.cursor }
  else
    match s.braces with
    | [] => .stop .mismatched
    | top :: rest =>
      match skipFrom glob true s.cursor.glob with
      | (.malformed, _) => .stop .malformed
      | (.comma, i) => .go { s with cursor := { s.cursor with glob := i, path := top.path } }
      | (.closed, i) =>
        if 0 < s.longest then .go (leaveBraces { s with cursor := { s.cursor with glob := i } })
        else if canReturn path top then
          .go { s with cursor := goBack top, braces := rest }
        else .stop .mismatched

def stepWildcard (s : State) : Step :=
  let c := s.cursor
  let globstar := globIs glob (c.glob + 1) '*'
  let here := if globstar then skipGlobstars glob glob.size (c.glob + 2) - 2 else c.glob
  let wild : Mark := { glob := here, path := c.path + 1 }
  let (next, star) :=
    if globstar then
      let next := here + 2
      if next = glob.size then (next, wild)
      else if (next < 3 || globIs glob (next - 3) '/') && globIs glob next '/' then
        let atSegment := c.path = 0 || (decide (c.path < path.size) && pathIs path (c.path - 1) '/')
        (if atSegment then next + 1 else next, wild)
      else (next, c.star)
    else (here + 1, c.star)
  let (next, wild) :=
    if star.path ≠ wild.path && pathIs path c.path '/' then
      if 0 < star.path && c.path + 1 < path.size then (star.glob, { wild with glob := star.glob })
      else (next, { wild with path := 0 })
    else (next, wild)
  let moved := fun next => Step.go { s with cursor := { glob := next, path := c.path, wild, star } }
  if !s.braces.isEmpty && (globIs glob next ',' || globIs glob next '\x7d') then
    match skipFrom glob false next with
    | (.malformed, _) => .stop .malformed
    | (_, next) => moved next
  else moved next

def stepClass (s : State) (ch : UInt8) : Step :=
  let c := s.cursor
  let negated := globIs glob (c.glob + 1) '^' || globIs glob (c.glob + 1) '!'
  let start := if negated then c.glob + 2 else c.glob + 1
  match classMembers? glob ch (glob.size + 1) start true false with
  | none => .stop .malformed
  | some (found, last) =>
    let c := { c with glob := last + 1 }
    if found != negated then .go { s with cursor := { c with path := c.path + 1 } }
    else retreat glob path { s with cursor := c }

def stepLiteral (s : State) (ch : UInt8) : Step :=
  match unescape? glob s.cursor.glob with
  | none => .stop .malformed
  | some (expected, i) =>
    let s := { s with cursor := { s.cursor with glob := i } }
    if ch = expected then
      let s :=
        if !s.braces.isEmpty && decide (0 < i) && globIs glob (i - 1) '\x7d' then
          leaveBraces { s with longest := s.cursor.path }
        else s
      let c := s.cursor
      let star := if ch = code '/' then c.star else { c.star with path := 0 }
      .go { s with cursor := { c with glob := c.glob + 1, path := c.path + 1, star } }
    else retreat glob path s

def step (s : State) : Step :=
  let c := s.cursor
  match glob[c.glob]?, path[c.path]? with
  | none, none => .stop .matched
  | none, some _ => retreat glob path s
  | some g, ch =>
    if g = code '*' then stepWildcard glob path s
    else if g = code '\x7d' && !s.braces.isEmpty then
      .go (leaveBraces { s with
        cursor := { c with glob := c.glob + 1 }, longest := max s.longest c.path })
    else if g = code ',' && !s.braces.isEmpty then
      let start := (s.braces.head?.map Cursor.path).getD 0
      .go { s with
        cursor := { glob := c.glob + 1, path := start }
        longest := max s.longest c.path }
    else
      match ch with
      | none => retreat glob path s
      | some ch =>
        if g = code '?' then
          if ch = code '/' then retreat glob path s
          else .go { s with cursor := { c with glob := c.glob + 1, path := c.path + 1 } }
        else if g = code '[' then stepClass glob path s ch
        else if g = code '\x7b' then
          if s.braces.length ≥ braceLimit then .stop .malformed
          else .go { s with
            cursor := { glob := c.glob + 1, path := c.path }
            braces := c :: s.braces }
        else stepLiteral glob path s ch

def run : (fuel : Nat) → State → Verdict
  | 0, _ => .malformed
  | fuel + 1, s =>
    match step glob path s with
    | .go s => run fuel s
    | .stop verdict => verdict

/-- A bound on the number of states. A run that ends is in no state twice, so it takes no more
steps. -/
def stateCount : Nat := Nat.pow ((glob.size + 4) * (path.size + 4)) 40

end Machine

/-- The number of leading negations of a pattern. -/
def negations : List UInt8 → Nat
  | c :: rest => if c = code '!' then negations rest + 1 else 0
  | [] => 0

def isMatch (glob path : String) : Bool :=
  let pattern := Digest.utf8 glob
  let skipped := negations pattern
  let glob := pattern.toArray
  let path := (Digest.utf8 path).toArray
  let negated := skipped % 2 = 1
  match run glob path (stateCount glob path) { cursor := { glob := skipped } } with
  | .matched => !negated
  | .mismatched => negated
  | .malformed => false

end CodeSplit.Glob
