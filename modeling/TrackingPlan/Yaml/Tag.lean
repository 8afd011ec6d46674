/-!
# Tags

A tag is a sequence of octets. Escapes may put octets into it that stand for no
character, so a tag need not be a text.
-/

namespace TrackingPlan.Yaml

structure Tag where
  octets : List UInt8
  deriving DecidableEq, Repr, Inhabited

namespace Tag

/-- The tag that is spelled by the octets. A zero ends it. -/
def ofOctets (octets : List UInt8) : Tag := ⟨octets.takeWhile (· != 0)⟩

def ofText (text : String) : Tag := ofOctets (text.toList.flatMap String.utf8EncodeChar)

def append (first second : Tag) : Tag := ⟨first.octets ++ second.octets⟩

instance : Append Tag := ⟨append⟩

def isEmpty (tag : Tag) : Bool := tag.octets.isEmpty

/-- The mark in front of tags that only an application could give a meaning. -/
def mark : Tag := ofText "!"

def startsWithMark (tag : Tag) : Bool := mark.octets.isPrefixOf tag.octets

/-- Whether the octets are the encoding of some text. -/
def isText (tag : Tag) : Bool := (String.fromUTF8? ⟨tag.octets.toArray⟩).isSome

/-- Whether only an application could give the tag a meaning. -/
def isLocal (tag : Tag) : Bool := tag.startsWithMark && tag.isText

/-- A tag that means the same in every document. -/
def standard (name : String) : Tag := ofText ("tag:yaml.org,2002:" ++ name)

def null : Tag := standard "null"
def boolean : Tag := standard "bool"
def integer : Tag := standard "int"
def real : Tag := standard "float"

end Tag

end TrackingPlan.Yaml
