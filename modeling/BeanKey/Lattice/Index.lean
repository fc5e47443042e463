import BeanKey.Input.Boundary
import BeanKey.Lattice.Entry

/-! The two indices of the lattice: positions of the input and of the surface. -/
namespace BeanKey.Lattice
open Input

inductive LatticeIndex where
  | input (index : Nat)
  | surface (index : Nat)
  deriving DecidableEq

inductive LatticeRange where
  | input (first last : Nat)
  | surface (first last : Nat)
  deriving DecidableEq

def LatticeRange.endIndex : LatticeRange → LatticeIndex
  | .input _ last => .input last
  | .surface _ last => .surface last

def LatticeRange.count : LatticeRange → ComposingCount
  | .input first last => .input (last - first)
  | .surface first last => .surface (last - first)

def LatticeRange.startsAtZero : LatticeRange → Bool
  | .input first _ => first = 0
  | .surface first _ => first = 0

inductive DualIndex where
  | input (index : Nat)
  | surface (index : Nat)
  | both (inputIndex surfaceIndex : Nat)
  deriving DecidableEq

def DualIndex.input? : DualIndex → Option Nat
  | .input index | .both index _ => some index
  | .surface _ => none

def DualIndex.surface? : DualIndex → Option Nat
  | .surface index | .both _ index => some index
  | .input _ => none

/-- The maps by their entries. `surfaceToInput` takes the first entry of each surface
position, in the order the hash map hands them out. -/
structure DualIndexMap where
  inputToSurface : List (Nat × Nat)
  surfaceToInput : List (Nat × Nat)
  identity : Bool

namespace DualIndexMap

def new (order : HashOrder) (composing : ComposingText) (tables : InputTableRegistry) :
    DualIndexMap :=
  let inputToSurface := composing.inputToSurfaceMap tables
  { inputToSurface
    surfaceToInput := (order.arrange 0 inputToSurface).map Prod.swap
    identity := composing.input.length = composing.surface.length &&
      (List.range (composing.input.length + 1)).all fun index =>
        inputToSurface.lookup index = some index }

def dual (map : DualIndexMap) (index : LatticeIndex) : DualIndex :=
  if map.identity then
    match index with
    | .input index | .surface index => .both index index
  else
    match index with
    | .input input =>
      match map.inputToSurface.lookup input with
      | some surface => .both input surface
      | none => .input input
    | .surface surface =>
      match map.surfaceToInput.lookup surface with
      | some input => .both input surface
      | none => .surface surface

/-- The positions an input position brings in, and the next surface position. -/
def indicesAt (map : DualIndexMap) (surfaceCount surfacePointer input : Nat) :
    List DualIndex × Nat :=
  match map.inputToSurface.lookup input with
  | some surface =>
    ((List.range' surfacePointer (surface - surfacePointer)).map .surface ++
      [if surfacePointer ≤ surface ∧ surface < surfaceCount then .both input surface
        else .input input], surface + 1)
  | none => ([.input input], surfacePointer)

/-- Every position, each before the positions that come after it. -/
def indices (map : DualIndexMap) (inputCount surfaceCount : Nat) : List DualIndex :=
  if map.identity then
    (List.range (min inputCount surfaceCount)).map fun index => .both index index
  else
    let (indices, surfacePointer) := (List.range inputCount).foldl
      (fun (indices, surfacePointer) input =>
        let (added, surfacePointer) := map.indicesAt surfaceCount surfacePointer input
        (indices ++ added, surfacePointer)) (([] : List DualIndex), 0)
    indices ++ (List.range' surfacePointer (surfaceCount - surfacePointer)).map .surface

end DualIndexMap

end BeanKey.Lattice
