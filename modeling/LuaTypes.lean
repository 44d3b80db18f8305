import LuaTypes.LogFormat
import LuaTypes.Program.Draft
import LuaTypes.Proofs.Bounded
import LuaTypes.Proofs.ChainClasses
import LuaTypes.Proofs.Degraded
import LuaTypes.Proofs.Independence
import LuaTypes.Proofs.Joins
import LuaTypes.Proofs.Produced
import LuaTypes.Proofs.Receivers
import LuaTypes.Proofs.SingleValues
import LuaTypes.Proofs.StoredTexts
import LuaTypes.Ty.Display
import LuaTypes.Ty.Subtype
import LuaTypes.Proofs.SubtypeUnions
import LuaTypes.Proofs.Inheritance
import LuaTypes.Proofs.SubtypeOrder
import LuaTypes.Proofs.SourceOrder
import LuaTypes.Proofs.Resolution
import LuaTypes.Proofs.Shadowing
import LuaTypes.Proofs.Overrides
import LuaTypes.Proofs.DetailReads
import LuaTypes.Proofs.FileOrder
import LuaTypes.Proofs.AliasOrder
import LuaTypes.Proofs.SuperclassWalks
import LuaTypes.Proofs.RestoredClasses
import LuaTypes.Proofs.RestoredTexts
import LuaTypes.Proofs.Substitution
import LuaTypes.Proofs.BoundNames
import LuaTypes.Proofs.InferredArguments
import LuaTypes.Proofs.AliasClosure
import LuaTypes.Proofs.SelfTypes
import LuaTypes.Proofs.ListedMembers
import LuaTypes.Proofs.OwnReturns
import LuaTypes.Proofs.ConstructorCalls
import LuaTypes.Proofs.ClearedTargets
import LuaTypes.Proofs.ExactVisits
import LuaTypes.Proofs.SourceTrees
import LuaTypes.Proofs.SpelledReceivers
import LuaTypes.Proofs.WildcardScans
import LuaTypes.Proofs.UnionFolds
import LuaTypes.Proofs.SyntheticNames
