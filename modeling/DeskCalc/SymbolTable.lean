import DeskCalc.Problem

/-!
# The symbol table

A table of names in the order in which they were first met. A name keeps its place for good, so
tokens refer to names by place. What a name is bound to changes in one way only: a name that is
undefined or assigned can be assigned.

* `Binding`: what a name can be bound to;
* `SymbolTable.intern`: the place of a name, made for it if it has none;
* `SymbolTable.assign`: the only way to change a binding;
* `SymbolTable.standard`: the constants, the built-in functions and the last result.
-/

namespace DeskCalc

inductive Binding (α : Type) where
  /-- Met, but never assigned. -/
  | undefined
  | assigned (value : α)
  | constant (value : α)
  | builtIn (f : BuiltIn)

namespace Binding

variable {α : Type}

def isMutable : Binding α → Bool
  | .undefined | .assigned _ => true
  | .constant _ | .builtIn _ => false

/-- The number that the name stands for, if it does. -/
def value? : Binding α → Option α
  | .assigned value | .constant value => some value
  | .undefined | .builtIn _ => none

/-- The number of arguments of the function that the name stands for, if it does. -/
def arity? : Binding α → Option Nat
  | .builtIn f => some f.arity
  | _ => none

end Binding

/--
Applies a built-in function. There is no result if the number of arguments is not the one that the
function takes.
-/
def BuiltIn.call? {α : Type} [Arithmetic α] :
    BuiltIn → List α → Draws α → Option (Except MathError α × Draws α)
  | .rand, [], draws => some (.ok draws.next.1, draws.next.2)
  | .unary f, [x], draws => some (Arithmetic.unary f x, draws)
  | .atan2, [y, x], draws => some (Arithmetic.atan2 y x, draws)
  | _, _, _ => none

/-- Applies what a name is bound to; there is a result only for functions and their arguments. -/
def Binding.call? {α : Type} [Arithmetic α] (b : Binding α) (arguments : List α)
    (draws : Draws α) : Option (Except MathError α × Draws α) :=
  match b with
  | .builtIn f => f.call? arguments draws
  | _ => none

structure SymbolEntry (α : Type) where
  name : String
  binding : Binding α

/-- The names met so far, in order. -/
structure SymbolTable (α : Type) where
  entries : Array (SymbolEntry α)

namespace SymbolTable

variable {α : Type}

def empty : SymbolTable α := ⟨#[]⟩

def size (t : SymbolTable α) : Nat := t.entries.size

def isEmpty (t : SymbolTable α) : Bool := t.entries.isEmpty

def toList (t : SymbolTable α) : List (String × Binding α) :=
  t.entries.toList.map fun e => (e.name, e.binding)

/-- The place of a name, if it has one. -/
def indexOf? (t : SymbolTable α) (name : String) : Option Nat :=
  t.entries.findIdx? (·.name == name)

/-- The place of a name; a new name gets one at the end and is undefined. -/
def intern (t : SymbolTable α) (name : String) : Nat × SymbolTable α :=
  match t.indexOf? name with
  | some index => (index, t)
  | none => (t.entries.size, ⟨t.entries.push ⟨name, .undefined⟩⟩)

def entry (t : SymbolTable α) (index : Nat) : Except SymbolError (SymbolEntry α) :=
  match t.entries[index]? with
  | some e => .ok e
  | none => .error (.invalidIndex index t.size)

def get (t : SymbolTable α) (index : Nat) : Except SymbolError (Binding α) :=
  (t.entry index).map (·.binding)

def name (t : SymbolTable α) (index : Nat) : Except SymbolError String :=
  (t.entry index).map (·.name)

def lookup (t : SymbolTable α) (name : String) : Option (Binding α) :=
  (t.entries.find? (·.name == name)).map (·.binding)

def value? (t : SymbolTable α) (name : String) : Option α :=
  (t.lookup name).bind Binding.value?

/-- The table with the name at the given place assigned, unless that must not be. -/
def assign (t : SymbolTable α) (index : Nat) (value : α) : Except SymbolError (SymbolTable α) :=
  match t.entry index with
  | .error e => .error e
  | .ok e =>
    if e.binding.isMutable then
      .ok ⟨t.entries.setIfInBounds index ⟨e.name, .assigned value⟩⟩
    else .error (.immutable e.name)

/-- The name of the variable that holds the last result. -/
def last : String := "last"

/-- The constants: `π`, Euler's two numbers, the degrees of a radian and the golden ratio. -/
def constants [Arithmetic α] : List (String × α) :=
  [("pi", Arithmetic.ofDecimal 3141592653589793 (-15)),
    ("e", Arithmetic.ofDecimal 2718281828459045 (-15)),
    ("gamma", Arithmetic.ofDecimal 5772156649015328606 (-19)),
    ("deg", Arithmetic.ofDecimal 572957795130823208768 (-19)),
    ("phi", Arithmetic.ofDecimal 16180339887498948482 (-19))]

def functions : List (String × BuiltIn) :=
  [("rand", .rand), ("sin", .unary .sin), ("cos", .unary .cos), ("atan", .unary .atan),
    ("log", .unary .log), ("log10", .unary .log10), ("exp", .unary .exp), ("sqrt", .unary .sqrt),
    ("int", .unary .int), ("abs", .unary .abs), ("atan2", .atan2)]

/-- The names of a session that has not read anything, with their bindings. -/
def standardBindings [Arithmetic α] : List (String × Binding α) :=
  constants.map (fun (name, value) => (name, .constant value)) ++
    functions.map (fun (name, f) => (name, .builtIn f)) ++
    [(last, .assigned (Arithmetic.ofDecimal 0 0))]

/-- The table with the given names and bindings, which are to be pairwise different names. -/
def ofList (bindings : List (String × Binding α)) : SymbolTable α :=
  ⟨(bindings.map fun (name, binding) => ⟨name, binding⟩).toArray⟩

def standard [Arithmetic α] : SymbolTable α := ofList standardBindings

@[simp] theorem toList_ofList (bindings : List (String × Binding α)) :
    (ofList bindings).toList = bindings := by
  simp [toList, ofList, Function.comp_def]

end SymbolTable

end DeskCalc
