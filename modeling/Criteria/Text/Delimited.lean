/-! # Splitting at separators outside delimiters

A text is read character by character. The state of the reading is the stack of delimiters that are
open, innermost first, and whether the next character is taken literally. One step says what a
character does; the raw and the clean split differ only in the characters they write out. -/
namespace Criteria.Text

/-- Two characters that enclose a region in which separators do not count. The escape character, if
there is one, makes the character after it literal inside the region. -/
structure Delimiter where
  opening : Char
  closing : Char
  escape : Option Char
deriving DecidableEq, Repr

/-- Quotes open and close with one character, and nothing opens inside them. -/
def Delimiter.isQuote (d : Delimiter) : Bool := d.opening == d.closing

inductive SplitError where
  | unbalanced (input : String) (depth : Nat)
  /-- The offset counts the bytes of UTF-8 before the character. -/
  | unexpectedClose (input : String) (found : Char) (offset : Nat)
deriving DecidableEq, Repr

def SplitError.message : SplitError → String
  | .unbalanced input depth =>
    "unbalanced delimiters in '" ++ input ++ "': " ++ toString depth ++ " left open"
  | .unexpectedClose input found offset =>
    "unbalanced delimiters in '" ++ input ++ "': unexpected '" ++ found.toString ++
      "' at offset " ++ toString offset

/-- A separator and the delimiters that hide it. Of two delimiters with one opening character the
earlier counts. -/
structure Splitter where
  separator : Char
  delimiters : List Delimiter
deriving DecidableEq, Repr

/-- Where a reading stands: the open delimiters, innermost first, and whether an escape character
has just been read. -/
structure Nesting where
  stack : List Delimiter
  literal : Bool
deriving DecidableEq, Repr

/-- Outside all delimiters. -/
def Nesting.top : Nesting := ⟨[], false⟩

/-- What one character does. -/
inductive Step where
  /-- A separator: one segment ends and the next begins. -/
  | cut
  /-- A closing character with nothing to close. -/
  | stray
  /-- A character of the segment. A `mark` belongs to the outermost delimiter: its opening, its
  closing or its escape character. -/
  | take (mark : Bool) (next : Nesting)
deriving DecidableEq, Repr

/-- How a reading fails: at the end, with delimiters open, or at a closing character with some text
after it. -/
inductive Fault where
  | open (depth : Nat)
  | stray (found : Char) (rest : List Char)
deriving DecidableEq, Repr

/-- The bytes that a text takes in UTF-8. -/
def byteCount : List Char → Nat
  | [] => 0
  | c :: cs => c.utf8Size + byteCount cs

def Fault.error (input : List Char) : Fault → SplitError
  | .open depth => .unbalanced (String.ofList input) depth
  | .stray found rest =>
    .unexpectedClose (String.ofList input) found (byteCount input - byteCount (found :: rest))

/-- How many characters some texts have together. -/
def totalLength : List (List Char) → Nat
  | [] => 0
  | cs :: rest => cs.length + totalLength rest

namespace Splitter

/-- One delimiter for each pair of characters at the same place in the two texts. The escape
characters are dealt out in the same order, as far as they go. -/
def ofPairs (separator : Char) (openings closings escapes : List Char) : Splitter :=
  ⟨separator, (openings.zip closings).zipIdx.map fun p => ⟨p.1.1, p.1.2, escapes[p.2]?⟩⟩

def opening? (sp : Splitter) (c : Char) : Option Delimiter :=
  sp.delimiters.find? fun d => d.opening == c

def closes (sp : Splitter) (c : Char) : Bool :=
  sp.delimiters.any fun d => !d.isQuote && d.closing == c

/-- A character outside all delimiters. -/
def topStep (sp : Splitter) (c : Char) : Step :=
  if c = sp.separator then .cut
  else match sp.opening? c with
    | some d => .take true ⟨[d], false⟩
    | none => if sp.closes c then .stray else .take false .top

/-- A character inside the delimiter `d`, which lies inside those of `outer`. -/
def innerStep (sp : Splitter) (d : Delimiter) (outer : List Delimiter) (c : Char) : Step :=
  if d.escape = some c then .take outer.isEmpty ⟨d :: outer, true⟩
  else if c = d.closing then .take outer.isEmpty ⟨outer, false⟩
  else if d.isQuote then .take false ⟨d :: outer, false⟩
  else match sp.opening? c with
    | some e => .take false ⟨e :: d :: outer, false⟩
    | none => .take false ⟨d :: outer, false⟩

def step (sp : Splitter) (q : Nesting) (c : Char) : Step :=
  match q.stack with
  | [] => sp.topStep c
  | d :: outer => if q.literal then .take false ⟨q.stack, false⟩ else sp.innerStep d outer c

/-- The segments of a text from a state on, the current one apart from those after it. A clean
reading leaves out the marks. -/
def segments (sp : Splitter) (clean : Bool) (q : Nesting) :
    List Char → Except Fault (List Char × List (List Char))
  | [] => if q.stack.isEmpty then .ok ([], []) else .error (.open q.stack.length)
  | c :: cs =>
    match sp.step q c with
    | .stray => .error (.stray c cs)
    | .cut => (sp.segments clean .top cs).map fun r => ([], r.1 :: r.2)
    | .take mark next =>
      (sp.segments clean next cs).map fun r =>
        (if mark && clean then r.1 else c :: r.1, r.2)

/-- The pieces of a text between its separators; the empty text has none. -/
def pieces (sp : Splitter) (clean : Bool) (cs : List Char) :
    Except SplitError (List (List Char)) :=
  if cs.isEmpty then .ok []
  else match sp.segments clean .top cs with
    | .ok r => .ok (r.1 :: r.2)
    | .error f => .error (f.error cs)

/-- The pieces of a text. The clean split drops the outermost delimiters and their escapes. -/
def split (sp : Splitter) (clean : Bool) (text : String) : Except SplitError (List String) :=
  (sp.pieces clean text.toList).map (List.map String.ofList)

/-- No character is written twice, and a cut writes none. -/
theorem length_segments {sp : Splitter} {clean : Bool} {q : Nesting} {cs : List Char}
    {r : List Char × List (List Char)} (h : sp.segments clean q cs = .ok r) :
    r.1.length + totalLength r.2 + r.2.length ≤ cs.length := by
  induction cs generalizing q r with
  | nil =>
    simp only [segments] at h
    split at h
    · cases h; simp [totalLength]
    · cases h
  | cons c cs ih =>
    simp only [segments] at h
    split at h
    · cases h
    · cases hs : sp.segments clean .top cs with
      | error f => simp [hs, Except.map] at h
      | ok s =>
        have := ih hs
        simp only [hs, Except.map, Except.ok.injEq] at h
        subst h
        simp only [List.length_nil, totalLength, List.length_cons]
        omega
    · rename_i mark next _
      cases hs : sp.segments clean next cs with
      | error f => simp [hs, Except.map] at h
      | ok s =>
        have := ih hs
        simp only [hs, Except.map, Except.ok.injEq] at h
        subst h
        simp only [List.length_cons]
        split
        · omega
        · simp only [List.length_cons]; omega

theorem length_pieces {sp : Splitter} {clean : Bool} {cs : List Char} {ps : List (List Char)}
    (h : sp.pieces clean cs = .ok ps) :
    totalLength ps + (ps.length - 1) ≤ cs.length := by
  simp only [pieces] at h
  split at h
  · cases h; simp [totalLength]
  · split at h
    · rename_i hs
      have := length_segments hs
      cases h
      simp only [totalLength, List.length_cons]
      omega
    · cases h

end Splitter
end Criteria.Text
