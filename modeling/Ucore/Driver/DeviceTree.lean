import Mathlib.Data.FinEnum
import Ucore.Driver.Correctness.DtbBounds

/-!
# `Driver.DeviceTree` — flattened device trees

What a device tree is, apart from any code: nodes with a name, in which properties, nodes and `FDT_NOP`s stand in any order
(`Forest`), and where its bytes lie (`Laid`): every item at a multiple of four bytes, behind the one before it. `events` is what
is met on the way through the structure block.
-/

namespace Ucore.Dtb

/-- The items in a node: properties, and nodes with items of their own -/
inductive Forest where
  | nil
  | nop (rest : Forest)
  | prop (name data : List UInt8) (rest : Forest)
  | node (name : List UInt8) (items rest : Forest)
deriving DecidableEq

namespace Forest

/-- The nodes directly among the items -/
def nodes : Forest → List (List UInt8 × Forest)
  | nil                  => []
  | nop rest             => rest.nodes
  | prop _ _ rest        => rest.nodes
  | node name items rest => (name, items) :: rest.nodes

/-- The properties directly among the items -/
def props : Forest → List (List UInt8 × List UInt8)
  | nil                 => []
  | nop rest            => rest.props
  | prop name data rest => (name, data) :: rest.props
  | node _ _ rest       => rest.props

end Forest

inductive Event where
  | begin (name : List UInt8)
  | fin
  | prop (name data : List UInt8)
deriving DecidableEq

/-- The way through the items, and through the nodes among them -/
def Forest.events : Forest → List Event
  | nil                  => []
  | nop rest             => rest.events
  | prop name data rest  => .prop name data :: rest.events
  | node name items rest => .begin name :: (items.events ++ .fin :: rest.events)

/-! ## The layout -/

/-- `n` bytes, filled up to a multiple of four -/
def padded (n : Nat) : Nat := (n + 3) / 4 * 4

/-- The bytes that the items take -/
def Forest.size : Forest → Nat
  | nil                  => 0
  | nop rest             => 4 + rest.size
  | prop _ data rest     => 12 + padded data.length + rest.size
  | node name items rest => 4 + padded (name.length + 1) + items.size + 4 + rest.size

/-- At `a` is `str`, which has no NUL of its own. -/
structure NameAt (m : Bytes) (a : Nat) (str : List UInt8) : Prop where
  isString : IsString m a str
  ne_zero : ∀ c ∈ str, c ≠ 0

/-- At `p` is a property, with its name in the strings from `strings` on. -/
structure PropAt (m : Bytes) (strings p : Nat) (name data : List UInt8) : Prop where
  token : cell m p = fdtProp
  length : cell m (p + 4) = data.length
  nameAt : NameAt m (strings + cell m (p + 8)) name
  dataAt : StartsWith m (p + 12) data

/-- At `p` a node begins. -/
structure BeginAt (m : Bytes) (p : Nat) (name : List UInt8) : Prop where
  token : cell m p = fdtBeginNode
  nameAt : NameAt m (p + 4) name
  length : name.length < 2 ^ 31

/-- The items lie in the structure block from `p` on. -/
def Laid (m : Bytes) (strings : Nat) : Forest → Nat → Prop
  | .nil, _                  => True
  | .nop rest, p             => cell m p = fdtNop ∧ Laid m strings rest (p + 4)
  | .prop name data rest, p  => PropAt m strings p name data ∧ Laid m strings rest (p + 12 + padded data.length)
  | .node name items rest, p =>
    let q := p + 4 + padded (name.length + 1)
    BeginAt m p name ∧ Laid m strings items q ∧ cell m (q + items.size) = fdtEndNode ∧ Laid m strings rest (q + items.size + 4)

instance (m : Bytes) (a : Nat) (str : List UInt8) : Decidable (NameAt m a str) :=
  decidable_of_iff (IsString m a str ∧ ∀ c ∈ str, c ≠ 0) ⟨fun h => ⟨h.1, h.2⟩, fun h => ⟨h.1, h.2⟩⟩

instance (m : Bytes) (strings p : Nat) (name data : List UInt8) : Decidable (PropAt m strings p name data) :=
  decidable_of_iff (cell m p = fdtProp ∧ cell m (p + 4) = data.length ∧ NameAt m (strings + cell m (p + 8)) name ∧
    StartsWith m (p + 12) data) ⟨fun h => ⟨h.1, h.2.1, h.2.2.1, h.2.2.2⟩, fun h => ⟨h.1, h.2, h.3, h.4⟩⟩

instance (m : Bytes) (p : Nat) (name : List UInt8) : Decidable (BeginAt m p name) :=
  decidable_of_iff (cell m p = fdtBeginNode ∧ NameAt m (p + 4) name ∧ name.length < 2 ^ 31)
    ⟨fun h => ⟨h.1, h.2.1, h.2.2⟩, fun h => ⟨h.1, h.2, h.3⟩⟩

instance decidableLaid (m : Bytes) (strings : Nat) : ∀ f p, Decidable (Laid m strings f p)
  | .nil, _                  => inferInstanceAs (Decidable True)
  | .nop rest, p             =>
    have := decidableLaid m strings rest (p + 4)
    inferInstanceAs (Decidable (_ ∧ _))
  | .prop _ data rest, p     =>
    have := decidableLaid m strings rest (p + 12 + padded data.length)
    inferInstanceAs (Decidable (_ ∧ _))
  | .node name items rest, p =>
    have := decidableLaid m strings items (p + 4 + padded (name.length + 1))
    have := decidableLaid m strings rest (p + 4 + padded (name.length + 1) + items.size + 4)
    inferInstanceAs (Decidable (_ ∧ _ ∧ _ ∧ _))

/-- The number of the bytes `bs`, the first of them the highest -/
def beNat (bs : List UInt8) : Nat := bs.foldl (fun x b => x * 256 + b.toNat) 0

def isMemoryName (name : List UInt8) : Bool :=
  name == memoryName || (memoryName ++ [0x40]).isPrefixOf name

def addressCells : List UInt8 := (CString.lit "#address-cells").chars

def sizeCells : List UInt8 := (CString.lit "#size-cells").chars

/-- **A flattened device tree** at `dtb`: `tree` is its structure block up to `FDT_END`, with `items` in the root. -/
structure DeviceTree (mem : Bytes) (dtb : Nat) (tree items : Forest) : Prop where
  aligned : dtb % 8 = 0
  magic : cell mem dtb = fdtMagic
  no_wrap : dtb + cell mem (dtb + 4) ≤ 2 ^ 64
  struct_aligned : cell mem (dtb + 8) % 4 = 0
  struct_inside : cell mem (dtb + 8) + cell mem (dtb + 36) ≤ cell mem (dtb + 4)
  strings_inside : cell mem (dtb + 12) + cell mem (dtb + 32) ≤ cell mem (dtb + 4)
  laid : Laid mem (stringsBase mem dtb) tree (dtb + cell mem (dtb + 8))
  ends : cell mem (dtb + cell mem (dtb + 8) + tree.size) = fdtEnd
  size : tree.size + 4 ≤ cell mem (dtb + 36)
  root : tree.nodes = [([], items)]
  no_props : tree.props = []
  address_cells : items.props.filter (·.1 = addressCells) = [(addressCells, [0, 0, 0, 2])]
  size_cells : items.props.filter (·.1 = sizeCells) = [(sizeCells, [0, 0, 0, 2])]

/-- A device tree in which exactly one child of the root is named `memory` or `memory@…`. Its `reg` is `data`: base and size, of 8
bytes each, for one region or for several. -/
structure MemoryTree (mem : Bytes) (dtb : Nat) (tree items : Forest) (data : List UInt8) : Prop extends
    DeviceTree mem dtb tree items where
  memory : ∃ name node, items.nodes.filter (isMemoryName ·.1) = [(name, node)] ∧ node.props.filter (·.1 = regName) = [(regName, data)]
  reg_length : 16 ≤ data.length ∧ data.length % 16 = 0

end Ucore.Dtb
