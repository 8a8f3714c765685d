import ZeroTrace.BufferPreviews

/-! Signatures as they are kept, with the texts of their types and the names of their parameters,
and the part of them that the previews look at. -/
namespace ZeroTrace.Signatures
open BufferPreviews (SigType Event maxParams gpArgCount eventArgValue eventFpArgValue sigTypeIsFp)

structure SigParam where
  decl : List Char
  name : List Char
  type : SigType
  deriving DecidableEq, Repr

structure FuncSig where
  symbol : List Char
  ret : SigParam
  params : List SigParam
  few : params.length ≤ maxParams
  variadic : Bool
  deriving DecidableEq, Repr

def FuncSig.types (sig : FuncSig) : BufferPreviews.FuncSig :=
  ⟨sig.symbol,sig.ret.type,sig.params.map SigParam.type,by rw [List.length_map]; exact sig.few,
    sig.variadic⟩

def sigconfFind (table : List FuncSig) (symbol : List Char) : Option FuncSig :=
  table.find? fun sig => sig.symbol == symbol

def eventArgValueExt (event : Event) (index : Nat) : Option UInt64 :=
  if index < gpArgCount then some (eventArgValue event index) else none

def isFormat (param : SigParam) : Bool := param.type == .cstr && param.name == ['f','m','t']

def findFormatParamIndex (sig : FuncSig) : Option Nat :=
  if sig.variadic then (List.range sig.params.length).reverse.find? fun i =>
    sig.params[i]?.any isFormat else none

/- Both counts go on over the parameters. -/
def countFixedParamRegs (sig : FuncSig) : Nat × Nat :=
  sig.params.foldl (fun counts p => if sigTypeIsFp p.type then
    (counts.1,counts.2 + 1) else (counts.1 + 1,counts.2)) (0,0)

variable {sig : FuncSig} {i : Nat}

theorem formatFound (found : findFormatParamIndex sig = some i) :
    ∃ param, sig.params[i]? = some param ∧ param.type = .cstr := by
  unfold findFormatParamIndex at found
  split at found
  · have is := List.find?_some found
    cases here : sig.params[i]? with
    | none => rw [here] at is; cases is
    | some param =>
      rw [here] at is
      exact ⟨param,rfl,by simpa using (Bool.and_eq_true_iff.mp is).1⟩
  · cases found

theorem formatRegister (found : findFormatParamIndex sig = some i) : i < gpArgCount := by
  obtain ⟨param,here,_⟩ := formatFound found
  have within := (List.getElem?_eq_some_iff.mp here).1
  have few := sig.few
  unfold maxParams at few
  unfold gpArgCount
  omega

theorem formatIndex (found : findFormatParamIndex sig = some i) :
    BufferPreviews.gpIndex sig.types.params i = i ↔ BufferPreviews.Leading sig.types i := by
  obtain ⟨param,here,_⟩ := formatFound found
  refine BufferPreviews.leadingIndex ?_
  have within := (List.getElem?_eq_some_iff.mp here).1
  unfold FuncSig.types
  rw [List.length_map]
  omega

theorem indexFew (params : List SigType) (i : Nat) : BufferPreviews.gpIndex params i ≤ i := by
  unfold BufferPreviews.gpIndex
  exact Nat.le_trans List.countP_le_length (by rw [List.length_take]; omega)

def fpIndex (params : List SigType) (j : Nat) : Nat := (params.take j).countP sigTypeIsFp

theorem countsFrom (params : List SigParam) (gp fp : Nat) :
    params.foldl (fun counts p => if sigTypeIsFp p.type then
      (counts.1,counts.2 + 1) else (counts.1 + 1,counts.2)) (gp,fp) =
      (gp + (params.map SigParam.type).countP fun t => !sigTypeIsFp t,
        fp + (params.map SigParam.type).countP sigTypeIsFp) := by
  induction params generalizing gp fp with
  | nil => rfl
  | cons p params ih =>
    rw [List.foldl_cons,List.map_cons,List.countP_cons,List.countP_cons]
    cases real : sigTypeIsFp p.type with
    | true =>
      simp only [if_true,ih,Prod.mk.injEq]
      exact ⟨by simp,by omega⟩
    | false =>
      simp only [Bool.false_eq_true,if_false,ih,Prod.mk.injEq]
      exact ⟨by simp; omega,by simp⟩

theorem fixedCounted (sig : FuncSig) : countFixedParamRegs sig =
    (BufferPreviews.gpIndex sig.types.params sig.params.length,
      fpIndex sig.types.params sig.params.length) := by
  have all : sig.types.params.take sig.params.length = sig.params.map SigParam.type := by
    rw [List.take_of_length_le (by simp [FuncSig.types])]
    rfl
  rw [countFixedParamRegs,countsFrom,BufferPreviews.gpIndex,fpIndex,all,Nat.zero_add,Nat.zero_add]

theorem fixedFew (sig : FuncSig) : fpIndex sig.types.params sig.params.length ≤ maxParams := by
  exact Nat.le_trans List.countP_le_length (Nat.le_trans (List.length_take_le _ _) sig.few)

end ZeroTrace.Signatures
