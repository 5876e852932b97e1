import BadgeRules.Canvas.Basic

/-!
# Rules

What a canvas stands for: awards, each guarded by a slot of conditions. A rule also keeps where the
nodes of its canvas were placed.
-/

namespace BadgeRules

inductive Formula
  | test (comparison : Comparison)
  | gate (op : Connective) (operands : List Formula)

namespace Formula

instance : Inhabited Formula := ⟨.gate .and []⟩

/-- Whether two trees are equal, numbers compared as doubles. -/
def beq : Formula → Formula → Bool
  | .test c, .test d => c == d
  | .gate o fs, .gate p gs => o == p && beqs fs gs
  | _, _ => false
where
  beqs : List Formula → List Formula → Bool
    | [], [] => true
    | f :: fs, g :: gs => beq f g && beqs fs gs
    | _, _ => false

instance : BEq Formula := ⟨beq⟩

def depth : Formula → Nat
  | .test _ => 1
  | .gate _ fs => 1 + depths fs
where
  depths : List Formula → Nat
    | [] => 0
    | f :: fs => max f.depth (depths fs)

def size : Formula → Nat
  | .test _ => 1
  | .gate _ fs => 1 + sizes fs
where
  sizes : List Formula → Nat
    | [] => 0
    | f :: fs => f.size + sizes fs

end Formula

/-- The conditions that guard one award: any of them will do. A slot with a single root and one
with a list of one root are told apart. -/
inductive Slot
  | single (root : Formula)
  | many (roots : List Formula)
deriving BEq

namespace Slot

def empty : Slot := .many []

def ofRoots : List Formula → Slot
  | [root] => .single root
  | roots => .many roots

def roots : Slot → List Formula
  | .single root => [root]
  | .many roots => roots

def isEmpty (s : Slot) : Bool := s.roots.isEmpty

theorem roots_ofRoots (roots : List Formula) : (ofRoots roots).roots = roots := by
  unfold ofRoots; split <;> rfl

end Slot

structure Placement (P : Type) where
  id : String
  position : P
deriving BEq

/-- Slot `i` guards award `i`. -/
structure Rule (P : Type) where
  id : String
  name : String
  description : Option String := none
  slots : List Slot := []
  awards : List Award := []
  layout : Option (List (Placement P)) := none
deriving BEq

namespace Rule

variable {P : Type}

/-- The roots that guard award `i`: none where there is no slot. -/
def rootsAt (r : Rule P) (i : Nat) : List Formula := (r.slots[i]?.map Slot.roots).getD []

/-- Every award with the roots that guard it. -/
def guarded (r : Rule P) : List (Award × List Formula) :=
  r.awards.mapIdx fun i a => (a, r.rootsAt i)

theorem length_guarded (r : Rule P) : r.guarded.length = r.awards.length := List.length_mapIdx

theorem getElem?_guarded (r : Rule P) (i : Nat) :
    r.guarded[i]? = r.awards[i]?.map fun a => (a, r.rootsAt i) := List.getElem?_mapIdx

theorem fst_guarded (r : Rule P) : r.guarded.map Prod.fst = r.awards :=
  List.ext_getElem? fun i => by simp [getElem?_guarded, Function.comp_def]

theorem snd_guarded (r : Rule P) : r.guarded.map Prod.snd = (List.range r.awards.length).map r.rootsAt := by
  refine List.ext_getElem? fun i => ?_
  by_cases hi : i < r.awards.length
  · simp [getElem?_guarded, hi]
  · simp [getElem?_guarded, hi]

end Rule

end BadgeRules
