import ComponentTemplate.Layout.Doc
import ComponentTemplate.Source.Position

/-!
# Dumps

A dump shows a tree of values with the names of its parts, one part to a line.
-/

namespace ComponentTemplate

/-- **A tree of named values**: a word, a record with named fields, a name around values, or
a list. -/
inductive Dump where
  | word (text : String)
  | record (name : String) (fields : List (String × Dump))
  | wrap (name : String) (value : Dump)
  | list (items : List Dump)
  deriving Inhabited

/-- A character of a quoted text, with the escapes of quotes, backslashes and control
characters of ASCII, and of no others. -/
def escapeChar (c : Char) : List Char :=
  match c with
  | '"' => ['\\', '"']
  | '\\' => ['\\', '\\']
  | '\n' => ['\\', 'n']
  | '\t' => ['\\', 't']
  | '\r' => ['\\', 'r']
  | '\x00' => ['\\', '0']
  | c =>
    if c.toNat < 32 ∨ c.toNat = 127 then
      "\\u\x7b".toList ++ Nat.toDigits 16 c.toNat ++ "\x7d".toList
    else [c]

namespace Dump

def quoted (text : String) : Dump :=
  word (String.ofList ('"' :: (text.toList.flatMap escapeChar ++ ['"'])))

def bool (value : Bool) : Dump :=
  word (if value then "true" else "false")

def span (region : Span) : Dump :=
  word ("@" ++ toString region.start ++ ".." ++ toString region.stop)

def spanned (region : Span) (node : Dump) : Dump :=
  record "Spanned" [("node", node), ("span", span region)]

def option : Option Dump → Dump
  | none => word "None"
  | some value => wrap "Some" value

/-- Documents on lines of their own, each with a comma, between two brackets. -/
def bracketed (opening closing : String) (docs : List Doc) : Doc :=
  .text opening ++ .nest (.concat (docs.map fun doc => Doc.line ++ doc ++ ",")) ++ Doc.line ++
    .text closing

mutual

/-- **A dump as a document.** -/
def doc : Dump → Doc
  | word text => text
  | record name fields => bracketed (name ++ " \x7b") "\x7d" (fieldDocs fields)
  | wrap name value => bracketed (name ++ "(") ")" [value.doc]
  | list [] => "[]"
  | list (item :: items) => bracketed "[" "]" (docs (item :: items))

def fieldDocs : List (String × Dump) → List Doc
  | [] => []
  | (name, value) :: fields => (.text (name ++ ": ") ++ value.doc) :: fieldDocs fields

def docs : List Dump → List Doc
  | [] => []
  | item :: items => item.doc :: docs items

end

def render (dump : Dump) : String :=
  dump.doc.render "    "

end Dump

end ComponentTemplate
