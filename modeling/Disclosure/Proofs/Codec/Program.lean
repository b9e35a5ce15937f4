import Disclosure.Codec.Program
import Disclosure.Proofs.Json.Reader

/-!
# Written declarations are read back

Classes, types, declarations and programs are read back from the forms in which they are written.
-/

namespace Disclosure

open Json (Encodes)

theorem Sensitivity.encodes (s : Sensitivity) : Encodes ofJson? s.toJson s := by
  cases s <;> exact .text fun _ => rfl

namespace DeclId

@[simp] theorem ofJson?_toJson (id : DeclId) : ofJson? id.toJson = some id := by
  simp [ofJson?, toJson]

theorem encodes (id : DeclId) : Encodes (fun _ => ofJson?) id.toJson id where
  plain := Json.plain_nat _
  read_eq _ _ := ofJson?_toJson id

theorem encodes_list (ids : List DeclId) : Encodes listOfJson? (Json.list toJson ids) ids :=
  .list fun id _ => id.encodes

end DeclId

theorem Primitive.encodes (p : Primitive) : Encodes ofJson? p.toJson p := by
  cases p <;> exact .text fun _ => rfl

theorem Ty.encodes (ty : Ty) : Encodes ofJson? ty.toJson ty := by
  induction ty with
  | primitive kind => exact kind.encodes.variant fun _ h => by simp [Json.variant, ofJson?, h]
  | declared id => exact id.encodes.variant fun _ h => by simp [Json.variant, ofJson?, h]
  | array element ih => exact ih.variant fun _ h => by simp [Json.variant, ofJson?, h]
  | null => exact .text fun _ => by simp [Json.text, ofJson?, Json.name?, ofName?]
  | void => exact .text fun _ => by simp [Json.text, ofJson?, Json.name?, ofName?]

theorem Role.encodes (r : Role) : Encodes ofJson? r.toJson r := by
  cases r with
  | method params returnType isStatic isConstructor =>
      have hparams := DeclId.encodes_list params
      have htype := returnType.encodes
      refine .variant_record ⟨hparams.plain, htype.plain, .bool _, .bool _⟩ ?_
      rintro depth ⟨hp, ht, -⟩
      simp [Json.variant, ofJson?, methodOfJson?, hparams.read_eq _ hp, htype.read_eq _ ht]
  | field ty isStatic =>
      refine .variant_record ⟨ty.encodes.plain, .bool _⟩ ?_
      rintro depth ⟨ht, -⟩
      simp [Json.variant, ofJson?, fieldOfJson?, ty.encodes.read_eq _ ht]
  | parameter ty owner =>
      refine .variant_record ⟨ty.encodes.plain, owner.encodes.plain⟩ ?_
      rintro depth ⟨ht, -⟩
      simp [Json.variant, ofJson?, parameterOfJson?, ty.encodes.read_eq _ ht]
  | localVar ty isConstant =>
      refine .variant_record ⟨ty.encodes.plain, .bool _⟩ ?_
      rintro depth ⟨ht, -⟩
      simp [Json.variant, ofJson?, localVarOfJson?, ty.encodes.read_eq _ ht]
  | staticInitializer => exact .text fun _ => by simp [Json.text, ofJson?, Json.name?, ofName?]
  | type => exact .text fun _ => by simp [Json.text, ofJson?, Json.name?, ofName?]

theorem Decl.encodes (s : Decl) : Encodes ofJson? s.toJson s := by
  have hrole := s.role.encodes
  have hannotations : Encodes (Json.list? fun _ => Json.text?) (.list Json.text s.annotations)
      s.annotations := .list fun label _ => .text fun _ => rfl
  have hoverrides := DeclId.encodes_list s.overrides
  refine .record ⟨s.id.encodes.plain, .text _, hrole.plain, hannotations.plain,
    hoverrides.plain⟩ ?_
  rintro depth ⟨-, -, hr, ha, ho⟩
  simp [ofJson?, hrole.read_eq _ hr, hannotations.read_eq _ ha, hoverrides.read_eq _ ho]

theorem Program.encodes (p : Program) : Encodes ofJson? p.toJson p := by
  have hdecls : Encodes (Json.list? Decl.ofJson?) (.list Decl.toJson p.decls.toList)
      p.decls.toList := .list fun s _ => s.encodes
  refine .record hdecls.plain ?_
  intro depth hd
  simp [ofJson?, hdecls.read_eq _ hd]

end Disclosure
