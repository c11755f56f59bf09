import HdrGain.Gamut
import HdrGain.Proofs.Matrix.Bounds

namespace HdrGain.Gamut

/-- What a linear conversion does, from what becomes of the three primaries. -/
def matrixOf (convert : Color Exact → Color Exact) : Matrix Exact :=
  .ofColumns (convert ⟨1.0, 0.0, 0.0⟩) (convert ⟨0.0, 1.0, 0.0⟩) (convert ⟨0.0, 0.0, 1.0⟩)

/-- The matrix from one gamut to another. -/
def route (source target : Gamut) : Matrix Exact :=
  ((conversion? source target).map matrixOf).getD .identity

theorem matrixOf_transform (matrix : Matrix Exact) : matrixOf matrix.transform = matrix := by
  apply Matrix.entries_injective
  ext row column
  fin_cases row <;> fin_cases column <;>
    norm_num [matrixOf, Matrix.entries, Matrix.ofColumns, Matrix.transform, Color.dot]

theorem transform_matrixOf_id : (matrixOf id).transform = id := by
  have unit : (Matrix.identity : Matrix Exact).transform = id :=
    funext Matrix.transform_identity
  rw [← unit, matrixOf_transform]

variable {source middle target : Gamut} {convert : Color Exact → Color Exact}

theorem transform_matrixOf (known : conversion? source target = some convert) :
    (matrixOf convert).transform = convert := by
  cases source <;> cases target <;> cases known <;> first
    | exact transform_matrixOf_id
    | rw [matrixOf_transform]

theorem conversion?_eq (known : source ∈ specified) (known' : target ∈ specified) :
    conversion? source target = some (route source target).transform := by
  have isSome : (conversion? source target : Option (Color Exact → Color Exact)).isSome := by
    rw [isSome_conversion?, isSpecified, isSpecified, decide_eq_true known, decide_eq_true known']
    rfl
  obtain ⟨convert, found⟩ := Option.isSome_iff_exists.mp isSome
  rw [route, found, Option.map_some, Option.getD_some, transform_matrixOf found]

theorem conversion?_self (known : source ∈ specified) :
    (conversion? source source : Option (Color Exact → Color Exact)) = some id := by
  cases source with
  | bt709 | displayP3 | bt2100 => rfl
  | unspecified => exact absurd known (by decide)

theorem transform_route_self (known : source ∈ specified) (color : Color Exact) :
    (route source source).transform color = color := by
  have found := conversion?_self known
  rw [conversion?_eq known known] at found
  exact congrFun (Option.some.inj found) color

theorem routes_near :
    ∀ source ∈ specified, ∀ middle ∈ specified, ∀ target ∈ specified,
      Matrix.Near (1 / 10 ^ 4) (route middle target * route source middle)
        (route source target) := by
  decide +kernel

/-- The way by a third gamut and the direct one, for colors of any size. -/
theorem abs_route_route_sub_le (known : source ∈ specified) (known' : middle ∈ specified)
    (known'' : target ∈ specified) (color : Color Exact) (channel : Fin 3) :
    |((route middle target).transform ((route source middle).transform color)).values channel -
        ((route source target).transform color).values channel| ≤
      1 / 10 ^ 4 * color.magnitude :=
  (routes_near source known middle known' target known'').abs_transform_transform_sub_le color
    channel

/-- Between gamuts that say what their primaries are every conversion exists. A color of the unit
cube comes back up to a thousandth, and exactly if it never left its gamut; and by way of a third
gamut it arrives where it goes directly, up to two thousandths. -/
theorem routes_agree :
    (∀ source ∈ specified, ∀ target ∈ specified, ∃ there back : Color Exact → Color Exact,
      conversion? source target = some there ∧ conversion? target source = some back ∧
      ∀ color : Color Exact, color.InUnitCube →
        (∀ channel, |(back (there color)).values channel - color.values channel| ≤ 1 / 10 ^ 3) ∧
        (source = target → back (there color) = color)) ∧
    ∀ source ∈ specified, ∀ middle ∈ specified, ∀ target ∈ specified,
      ∃ first second direct : Color Exact → Color Exact,
        conversion? source middle = some first ∧ conversion? middle target = some second ∧
        conversion? source target = some direct ∧
        ∀ color : Color Exact, color.InUnitCube → ∀ channel,
          |(second (first color)).values channel - (direct color).values channel| ≤
            2 / 10 ^ 3 := by
  constructor
  · intro source known target known'
    refine ⟨_, _, conversion?_eq known known', conversion?_eq known' known,
      fun color inside => ⟨fun channel => ?_, ?_⟩⟩
    · have near := abs_route_route_sub_le known known' known color channel
      rw [transform_route_self known] at near
      linarith [inside.magnitude_le_one]
    · rintro rfl
      rw [transform_route_self known, transform_route_self known]
  · intro source known middle known' target known''
    refine ⟨_, _, _, conversion?_eq known known', conversion?_eq known' known'',
      conversion?_eq known known'', fun color inside channel => ?_⟩
    have near := abs_route_route_sub_le known known' known'' color channel
    linarith [inside.magnitude_le_one]

/-- Pure green of the widest gamut, to the middle one and back, and on to the narrowest. -/
theorem green_by_displayP3 :
    (⟨0.0, 1.0, 0.0⟩ : Color Exact).InUnitCube ∧
    (bt2100 ∈ specified ∧ displayP3 ∈ specified ∧ bt709 ∈ specified) ∧
    ∃ there back onward direct : Color Exact → Color Exact,
      conversion? bt2100 displayP3 = some there ∧ conversion? displayP3 bt2100 = some back ∧
      conversion? displayP3 bt709 = some onward ∧ conversion? bt2100 bt709 = some direct ∧
      ∀ channel,
        |(back (there ⟨0.0, 1.0, 0.0⟩)).values channel -
            (⟨0.0, 1.0, 0.0⟩ : Color Exact).values channel| ≤ 1 / 10 ^ 3 ∧
        |(onward (there ⟨0.0, 1.0, 0.0⟩)).values channel -
            (direct ⟨0.0, 1.0, 0.0⟩).values channel| ≤ 2 / 10 ^ 3 := by
  have wide : bt2100 ∈ specified := by decide
  have middle : displayP3 ∈ specified := by decide
  have narrow : bt709 ∈ specified := by decide
  have inside : (⟨0.0, 1.0, 0.0⟩ : Color Exact).InUnitCube := by
    decide +kernel
  obtain ⟨there, back, thereFound, backFound, returns⟩ :=
    routes_agree.1 bt2100 wide displayP3 middle
  obtain ⟨first, onward, direct, firstFound, onwardFound, directFound, agrees⟩ :=
    routes_agree.2 bt2100 wide displayP3 middle bt709 narrow
  obtain rfl : there = first := Option.some.inj (thereFound.symm.trans firstFound)
  exact ⟨inside, ⟨wide, middle, narrow⟩, there, back, onward, direct, thereFound, backFound,
    onwardFound, directFound, fun channel =>
      ⟨(returns _ inside).1 channel, agrees _ inside channel⟩⟩

end HdrGain.Gamut
