import FenceSync.Text.Basic
/-!
# Languages and their comments

The tags that may follow an opening delimiter, and the style of single-line comment that each of
those languages uses. A tag is matched exactly.
-/
namespace FenceSync

inductive FileType
  | plainText
  | typeScript
  | javaScript
  | reason
  | scss
  | rust
  | java
  | cpp
  | c
  | html
  | xml
  | markdown
  | yaml
  | json
  | json5
  | python
  | bash
  | shell
  | golang
  | objectiveC
  | php
  | cSharp
  | swift
  | ruby
  | kotlin
  | scala
  | crystal
  | plantUml
  | mermaid
  | cMake
  | protobuf
  | sql
  | haskell
  | arduino
  | jsx
  | tsx
deriving DecidableEq, Repr

namespace FileType

/-- Every file type, in the order in which messages list them. -/
def all : List FileType :=
  [.plainText, .typeScript, .javaScript, .reason, .scss, .rust, .java, .cpp, .c, .html, .xml,
   .markdown, .yaml, .json, .json5, .python, .bash, .shell, .golang, .objectiveC, .php, .cSharp,
   .swift, .ruby, .kotlin, .scala, .crystal, .plantUml, .mermaid, .cMake, .protobuf, .sql,
   .haskell, .arduino, .jsx, .tsx]

def tagName : FileType → String
  | .plainText => "txt"
  | .typeScript => "ts"
  | .javaScript => "js"
  | .reason => "re"
  | .scss => "scss"
  | .rust => "rust"
  | .java => "java"
  | .cpp => "cpp"
  | .c => "c"
  | .html => "html"
  | .xml => "xml"
  | .markdown => "md"
  | .yaml => "yaml"
  | .json => "json"
  | .json5 => "json5"
  | .python => "py"
  | .bash => "bash"
  | .shell => "sh"
  | .golang => "go"
  | .objectiveC => "objectivec"
  | .php => "php"
  | .cSharp => "cs"
  | .swift => "swift"
  | .ruby => "rb"
  | .kotlin => "kotlin"
  | .scala => "scala"
  | .crystal => "cr"
  | .plantUml => "puml"
  | .mermaid => "mermaid"
  | .cMake => "cmake"
  | .protobuf => "proto"
  | .sql => "sql"
  | .haskell => "hs"
  | .arduino => "ino"
  | .jsx => "jsx"
  | .tsx => "tsx"

/-- The tag as it is written after the opening delimiter. -/
def tag (f : FileType) : Text := f.tagName.toList

def ofTag? (tag : Text) : Option FileType := all.find? fun f => f.tag = tag

/-- All tags, for messages. -/
def supportedTags : Text := Text.join ", ".toList (all.map tag)

theorem mem_all (f : FileType) : f ∈ all := by cases f <;> decide

end FileType

/-- A style of single-line comment. -/
inductive CommentFamily
  | none
  | slashes
  | xml
  | hash
  | singleQuote
  | doublePercent
  | doubleHyphens
deriving DecidableEq, Repr

namespace CommentFamily

/-- What opens a comment. -/
def marker? : CommentFamily → Option Text
  | .none => Option.none
  | .slashes => some ['/', '/']
  | .xml => some ['<', '!', '-', '-']
  | .hash => some ['#']
  | .singleQuote => some ['\'']
  | .doublePercent => some ['%', '%']
  | .doubleHyphens => some ['-', '-']

/-- The file types of each family. -/
def members : List (CommentFamily × List FileType) :=
  [(.none, [.json]),
   (.slashes,
    [.plainText, .c, .typeScript, .reason, .javaScript, .rust, .cpp, .java, .golang, .objectiveC,
     .scss, .php, .cSharp, .swift, .kotlin, .scala, .json5, .protobuf, .arduino, .jsx, .tsx]),
   (.xml, [.html, .markdown, .xml]),
   (.hash, [.python, .bash, .shell, .yaml, .ruby, .crystal, .cMake]),
   (.singleQuote, [.plantUml]),
   (.doublePercent, [.mermaid]),
   (.doubleHyphens, [.sql, .haskell])]

end CommentFamily

/-- The family that lists the file type, if one does. -/
def FileType.family? (f : FileType) : Option CommentFamily :=
  (CommentFamily.members.find? fun (_, fs) => fs.contains f).map (·.1)

end FenceSync
