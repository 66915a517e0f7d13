import FlatScope.Source.Loc

/-!
# Excerpts of a source text

A reader is shown places of a text together with the lines around them. `Layout` is what has to be
known of the text for that, `Layout.linesAround` the lines that some places need, and
`Layout.marks` says under which of them a place is marked. Here the offsets of a place, which
count bytes, are read as numbers of characters: behind a character of several bytes a place is
marked too far on, and at the end of the text it may not be marked at all.
-/

namespace FlatScope

/-- The character behind which a place ends; for an empty place the one at which it stands. -/
def Loc.last (loc : Loc) : Nat := max (loc.stop - 1) loc.start

/-- The characters of a text from `start` up to `stop`; the end of the line is one of them. -/
structure TextLine where
  start : Nat
  stop : Nat
deriving DecidableEq, Repr

namespace TextLine

/-- The characters that end a line. -/
def isEnd (c : Char) : Bool :=
  c ∈ ['\n', '\r', '\x0b', '\x0c', '\u0085', '\u2028', '\u2029']

/--
The lines of what follows character number `pos`, which is on a line that began at `start`. A
carriage return and a line feed end one line together.
-/
def split (start pos : Nat) : List Char → List TextLine
  | [] => if start = pos then [] else [⟨start, pos⟩]
  | '\r' :: '\n' :: rest => ⟨start, pos + 2⟩ :: split (pos + 2) (pos + 2) rest
  | c :: rest =>
    if isEnd c then ⟨start, pos + 1⟩ :: split (pos + 1) (pos + 1) rest
    else split start (pos + 1) rest

end TextLine

/-- The number of characters of a text and its lines; an empty text has one line. -/
structure Layout where
  size : Nat
  lines : List TextLine
deriving DecidableEq, Repr

namespace Layout

def ofText (text : String) : Layout where
  size := text.length
  lines := match TextLine.split 0 0 text.toList with
    | [] => [⟨0, 0⟩]
    | lines => lines

/-- The line of a character; the end of the text is on the last line. -/
def lineAt (layout : Layout) (pos : Nat) : TextLine :=
  ((layout.lines.filter fun line => line.start ≤ pos).getLast?).getD ⟨0, 0⟩

/-- A place is looked for if it starts in the text and its last character is not beyond the end. -/
def reaches (layout : Layout) (loc : Loc) : Bool :=
  loc.start ≤ layout.size && loc.last ≤ layout.size

/-- The lines from the first to the last character of some places. -/
def linesAround (layout : Layout) : List Loc → List TextLine
  | [] => []
  | loc :: locs =>
    let start := locs.foldl (fun start loc => min start loc.start) loc.start
    let stop := locs.foldl (fun stop loc => max stop loc.stop) loc.stop
    let first := layout.lineAt start
    let last := layout.lineAt (Loc.last ⟨loc.source, start, stop⟩)
    layout.lines.filter fun line => first.start ≤ line.start && line.start ≤ last.start

/--
A place on one line is marked under each line that it fits into: an empty one between two lines
fits into both. A place on several lines is marked where its last character is.
-/
def marks (layout : Layout) (line : TextLine) (loc : Loc) : Bool :=
  if layout.lineAt loc.start = layout.lineAt loc.last then
    line.start ≤ loc.start && loc.stop ≤ line.stop
  else line.start ≤ loc.last && loc.last < line.stop

end Layout

end FlatScope
