import ShaderInterface.Proofs.PaddedBlock

namespace ShaderInterface

namespace Padding

open Position

/-- The element index, as the word that a caller keeps, once some fields are padded in turn. -/
def replay (fields : List Variable) (index : UInt32) : Except Fault UInt32 :=
  fields.foldlM (fun index field => do
    let padding ← beforeWord field index
    return UInt32.ofNat padding.index) index

theorem indexAfter_lt (fields : List Variable) {index : Nat} (h : index < registerWidth) :
    indexAfter fields index < registerWidth := by
  induction fields generalizing index with
  | nil => exact h
  | cons field fields ih => exact ih (before_index_lt field index)

theorem replay_of_lt (fields : List Variable) {index : UInt32} (h : index.toNat < registerWidth) :
    replay fields index = .ok (UInt32.ofNat (indexAfter fields index.toNat)) := by
  induction fields generalizing index with
  | nil =>
    have hself : UInt32.ofNat index.toNat = index := UInt32.ofNat_toNat
    exact congrArg Except.ok hself.symm
  | cons field fields ih =>
    have hnext := before_index_lt field index.toNat
    have hword := UInt32.toNat_ofNat_of_lt' (Nat.lt_trans hnext (by decide))
    have hrest := ih (by rw [hword]; exact hnext)
    rw [hword] at hrest
    rw [replay, List.foldlM_cons, beforeWord_of_lt field h]
    exact hrest

theorem structIndex_eq_element (path : Path) (rowMajor : Bool) (fields : List Variable) :
    structIndex fields =
      element (Rule.std140.endAt Leaf.memberShape (Variable.fieldVisits path rowMajor fields) 0) := by
  obtain ⟨-, hindex, -⟩ := fits_fields (fun f (_ : f ∈ fields) => fits f) path rowMajor 0 0
  exact hindex

end Padding

theorem Rule.layoutMembers_append {rule : Rule} {scope : String} {rowMajor : Bool}
    {done rest : List Variable} {position : Nat}
    (h : rule.endAt Leaf.memberShape (Variable.fieldVisits (.root scope) rowMajor (done ++ rest))
      position ≤ Position.last) :
    ∃ members more finish,
      rule.layoutMembers scope rowMajor done position = .ok (members,
        rule.endAt Leaf.memberShape (Variable.fieldVisits (.root scope) rowMajor done) position) ∧
      rule.layoutMembers scope rowMajor rest (rule.endAt Leaf.memberShape
        (Variable.fieldVisits (.root scope) rowMajor done) position) = .ok (more, finish) ∧
      rule.layoutMembers scope rowMajor (done ++ rest) position = .ok (members ++ more, finish) := by
  have hall := layoutMembers_of_le h
  rw [Variable.fieldVisits_append, endAt_append] at h
  rw [Variable.fieldVisits_append, reached_append, endAt_append, List.map_append] at hall
  have hdone := Nat.le_trans (le_endAt Leaf.wellFormed_memberShape _ _) h
  exact ⟨_, _, _, layoutMembers_of_le hdone, layoutMembers_of_le h, hall⟩

namespace Padding

open Position

/-- The element index is the component of the register that the standard layout of the fields has
reached. -/
theorem index_tracks_layout (scope : String) (rowMajor : Bool) (fields : List Variable)
    (h : Std140.fieldsEnd rowMajor fields 0 ≤ last) :
    (∀ done rest, done ++ rest = fields →
      ∃ index members more position finish,
        replay done 0 = .ok index ∧ index.toNat < registerWidth ∧ index.toNat = element position ∧
        Rule.std140.layoutMembers scope rowMajor done 0 = .ok (members, position) ∧
        Rule.std140.layoutMembers scope rowMajor rest position = .ok (more, finish) ∧
        Rule.std140.layoutMembers scope rowMajor fields 0 = .ok (members ++ more, finish)) ∧
    ∃ members finish, Rule.std140.layoutMembers scope rowMajor fields 0 = .ok (members, finish) ∧
      structIndex fields = element finish := by
  rw [← Std140.endAt_fieldVisits (.root scope)] at h
  constructor
  · intro done rest hfields
    rw [← hfields] at h ⊢
    obtain ⟨members, more, finish, hdone, hrest, hall⟩ := Rule.layoutMembers_append h
    have hindex := structIndex_eq_element (.root scope) rowMajor done
    have hlt : structIndex done < registerWidth := indexAfter_lt done (by decide)
    have hword := UInt32.toNat_ofNat_of_lt' (Nat.lt_trans hlt (by decide))
    refine ⟨UInt32.ofNat (structIndex done), members, more, _, finish, ?_, ?_, ?_, hdone, hrest, hall⟩
    · exact replay_of_lt done (by decide)
    · rw [hword]
      exact hlt
    · rw [hword, hindex]
  · exact ⟨_, _, Rule.layoutMembers_of_le h, structIndex_eq_element (.root scope) rowMajor fields⟩

theorem index_tracks_layout_scene :
    Std140.fieldsEnd true Std140.sceneFields 0 ≤ last ∧ structIndex Std140.sceneFields = 1 ∧
      (∃ members finish, Rule.std140.layoutMembers "" true Std140.sceneFields 0 =
        .ok (members, finish) ∧ element finish = 1) ∧
      ∃ index members more position finish,
        replay (Std140.sceneFields.take 2) 0 = .ok index ∧ index.toNat < registerWidth ∧
        index.toNat = element position ∧
        Rule.std140.layoutMembers "" true (Std140.sceneFields.take 2) 0 = .ok (members, position) ∧
        Rule.std140.layoutMembers "" true (Std140.sceneFields.drop 2) position =
          .ok (more, finish) ∧
        Rule.std140.layoutMembers "" true Std140.sceneFields 0 = .ok (members ++ more, finish) := by
  have hfits : Std140.fieldsEnd true Std140.sceneFields 0 ≤ last := by decide
  have hone : structIndex Std140.sceneFields = 1 := by decide
  obtain ⟨heach, members, finish, hlayout, hindex⟩ :=
    index_tracks_layout "" true Std140.sceneFields hfits
  exact ⟨hfits, hone, ⟨members, finish, hlayout, hindex.symm.trans hone⟩,
    heach _ _ (List.take_append_drop 2 Std140.sceneFields)⟩

end Padding

end ShaderInterface
