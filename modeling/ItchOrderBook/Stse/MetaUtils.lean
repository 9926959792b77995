import ItchOrderBook.Foundation.ByteOrder

/-! # Types and their reflected members

`CppType` is a serializable type as it is declared, bases included. Reflection
flattens it: the members of the bases, depth first, then the class's own, each with
the offset `std::meta::offset_of` reports and the position it really has in the
complete object.
-/
namespace ItchOrderBook.Stse

/-- What the templates see of a data member. -/
structure MemberInfo where
  skip : Bool
  ignore : Bool
  offsetOf : ℕ
  position : ℕ
  deriving DecidableEq

mutual
/-- A type as the templates walk it: `Scalar`, `StaticContainer` or `Aggregate`. -/
inductive TypeInfo
  | scalar (size : ℕ)
  | array (count : ℕ) (value : TypeInfo)
  | aggregate (size : ℕ) (members : MemberList)
/-- `all_data_members_of`. -/
inductive MemberList
  | nil
  | cons (info : MemberInfo) (type : TypeInfo) (rest : MemberList)
end

def MemberList.append : MemberList → MemberList → MemberList
  | .nil, ms => ms
  | .cons info type rest, ms => .cons info type (rest.append ms)

mutual
inductive CppType
  | scalar (size : ℕ)
  | array (count : ℕ) (value : CppType)
  | record (size : ℕ) (bases : Bases) (members : Fields)
/-- Base classes with the offset of each base subobject. -/
inductive Bases
  | nil
  | cons (offset : ℕ) (bases : Bases) (members : Fields) (rest : Bases)
/-- Data members with their annotations and their offset in the declaring class. -/
inductive Fields
  | nil
  | cons (skip ignore : Bool) (offset : ℕ) (type : CppType) (rest : Fields)
end

mutual
def CppType.reflect : CppType → TypeInfo
  | .scalar size => .scalar size
  | .array count value => .array count value.reflect
  | .record size bases members =>
    .aggregate size ((bases.dataMembers 0).append (members.dataMembers 0))
/-- The loop over the bases in `get_all_data_members_of`, for a class at `base`. -/
def Bases.dataMembers (base : ℕ) : Bases → MemberList
  | .nil => .nil
  | .cons offset bases members rest =>
    ((bases.dataMembers (base + offset)).append (members.dataMembers (base + offset))).append
      (rest.dataMembers base)
/-- The loop over the own members in `get_all_data_members_of`. -/
def Fields.dataMembers (base : ℕ) : Fields → MemberList
  | .nil => .nil
  | .cons skip ignore offset type rest =>
    .cons ⟨skip, ignore, offset, base + offset⟩ type.reflect (rest.dataMembers base)
end

mutual
/-- No class of the type has a base class. -/
def CppType.NoBases : CppType → Prop
  | .scalar _ => True
  | .array _ value => value.NoBases
  | .record _ bases members => bases = .nil ∧ members.NoBases
def Fields.NoBases : Fields → Prop
  | .nil => True
  | .cons _ _ _ type rest => type.NoBases ∧ rest.NoBases
end

mutual
/-- Every member sits where `offset_of` says. -/
def TypeInfo.OffsetsExact : TypeInfo → Prop
  | .scalar _ => True
  | .array _ value => value.OffsetsExact
  | .aggregate _ members => members.OffsetsExact
def MemberList.OffsetsExact : MemberList → Prop
  | .nil => True
  | .cons info type rest => info.offsetOf = info.position ∧ type.OffsetsExact ∧ rest.OffsetsExact
end

mutual
theorem CppType.offsetsExact : ∀ T : CppType, T.NoBases → T.reflect.OffsetsExact
  | .scalar _, _ => trivial
  | .array _ value, h => value.offsetsExact h
  | .record _ bases members, h => by
    obtain ⟨rfl, hm⟩ := h
    exact members.offsetsExact hm
theorem Fields.offsetsExact : ∀ fs : Fields, fs.NoBases → (fs.dataMembers 0).OffsetsExact
  | .nil, _ => trivial
  | .cons _ _ offset type rest, h =>
    ⟨(Nat.zero_add offset).symm, type.offsetsExact h.1, rest.offsetsExact h.2⟩
end

end ItchOrderBook.Stse
