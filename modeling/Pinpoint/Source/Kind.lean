namespace Pinpoint

/-- Nodes are numbered in the order in which they join their tree; the root is 0. -/
abbrev NodeId := Nat

/-- How a node is named in messages. -/
def NodeId.label (id : NodeId) : String := "node_" ++ toString id

/-- Which kind of class-like declaration a class node is. -/
inductive Flavor where
  | ordinary
  | interface
  | enum
  | annotationType
deriving DecidableEq

namespace Flavor

/-- The word for a flavor in documents. -/
def tag : Flavor → String
  | .ordinary => "class"
  | .interface => "interface"
  | .enum => "enum"
  | .annotationType => "annotation_type"

def all : List Flavor := [.ordinary, .interface, .enum, .annotationType]

/-- The flavor that a word names. -/
def ofTag? (word : String) : Option Flavor := all.find? (·.tag == word)

end Flavor

/-- The kind of a node. The body of an object construction and the receiver of a method are not declared
with the node: they are wired when a fitting child joins it. -/
inductive Kind where
  /-- The root of a source file, with its package clause if there is one. -/
  | unit (package : Option String)
  /-- A class-like declaration; the empty name marks an anonymous class. -/
  | classDecl (name : String) (flavor : Flavor)
  /-- An object construction, with the class that is its inline body. -/
  | construction (body : Option NodeId)
  /-- A method or constructor, with the descriptors of its parameters and its receiver parameter. -/
  | method (name : String) (parameters : List String) (receiver : Option NodeId)
  /-- A variable or parameter, possibly the explicit receiver parameter of a method. -/
  | variable (name : String) (isReceiver : Bool)
  | block
  /-- Anything else, with a free label. -/
  | other (label : String)
deriving DecidableEq

namespace Kind

/-- A class without a simple name. -/
def namelessClass : Kind := .classDecl "" .ordinary

/-- The explicit receiver parameter of a method. -/
def explicitReceiver : Kind := .variable "this" true

/-- The word for a kind in documents and messages. -/
def tag : Kind → String
  | .unit _ => "compilation_unit"
  | .classDecl _ _ => "class"
  | .construction _ => "new_class"
  | .method _ _ _ => "method"
  | .variable _ _ => "variable"
  | .block => "block"
  | .other _ => "other"

def isUnit : Kind → Bool
  | .unit _ => true
  | _ => false

def isClass : Kind → Bool
  | .classDecl _ _ => true
  | _ => false

def isConstruction : Kind → Bool
  | .construction _ => true
  | _ => false

def isMethod : Kind → Bool
  | .method _ _ _ => true
  | _ => false

def isVariable : Kind → Bool
  | .variable _ _ => true
  | _ => false

def isBlock : Kind → Bool
  | .block => true
  | _ => false

/-- Whether the kind is an explicit receiver parameter. -/
def isReceiver : Kind → Bool
  | .variable _ isReceiver => isReceiver
  | _ => false

/-- The simple name of a class, method or variable. -/
def simpleName? : Kind → Option String
  | .classDecl name _ => some name
  | .method name _ _ => some name
  | .variable name _ => some name
  | _ => none

/-- The package a compilation unit is in; an empty clause counts as none. -/
def package? : Kind → Option String
  | .unit (some package) => if package.isEmpty then none else some package
  | _ => none

/-- The inline body of an object construction. -/
def body? : Kind → Option NodeId
  | .construction body => body
  | _ => none

/-- The receiver parameter that a method declares. -/
def receiver? : Kind → Option NodeId
  | .method _ _ receiver => receiver
  | _ => none

/-- The kind as it is declared, without what is wired by its children. -/
def declared : Kind → Kind
  | .construction _ => .construction none
  | .method name parameters _ => .method name parameters none
  | kind => kind

/-- How a kind is described to a reader. -/
def describe : Kind → String
  | .unit (some package) => "compilation unit " ++ package
  | .unit none => "compilation unit"
  | .classDecl name _ => if name.isEmpty then "anonymous class" else "class " ++ name
  | .construction (some _) => "new (with body)"
  | .construction none => "new"
  | .method name parameters _ => "method " ++ name ++ "(" ++ String.join parameters ++ ")"
  | .variable name _ => "variable " ++ name
  | .block => "block"
  | .other label => "other " ++ label

end Kind

end Pinpoint
