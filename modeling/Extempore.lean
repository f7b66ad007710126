import Extempore.LinkedRings
import Extempore.GuardedRuns
import Extempore.TerminatedRecords
import Extempore.ChunkedStreams
import Extempore.ByteMemory
import Extempore.BigEndian
import Extempore.TreadmillRing
import Extempore.HeapGrowth
import Extempore.WaveFiles
import Extempore.SchemeReader
import Extempore.Zones
import Extempore.Continuations
import Extempore.OscStrings
import Extempore.OscMessages
import Extempore.OscArguments
import Extempore.OscReceiver
import Extempore.SlipFraming
import Extempore.ReplServer
import Extempore.SchemeData
import Extempore.ReferenceEvaluator
import Extempore.RegisterMachine
import Extempore.MachineSimulation
import Extempore.ClosureAddressTable
import Extempore.SynchronousIpc
import Extempore.TruncatedEuclid
import Extempore.CheckedResults
import Extempore.ExactNumbers
import Extempore.Atoms
import Extempore.HashedEnvironments
import Extempore.Continuations
import Extempore.TokenReader
import Extempore.ReaderComments
import Extempore.Sexprs
import Extempore.SchemeValues
import Extempore.StringTexts
import Extempore.IpcArguments
import Extempore.SchemeWriter
import Extempore.WhileLoops
import Extempore.NameMangling
import Extempore.NameDemangling
import Extempore.ReversibleNames
import Extempore.GluedMaps
import Extempore.Metronome
import Extempore.PriorityQueues
import Extempore.Promises
import Extempore.TaskScheduler
import Extempore.XtlangForms
import Extempore.ReturnMarks
import Extempore.VisibleNames
import Extempore.ClosureConversion
import Extempore.ClosureSizes
import Extempore.AudioBarrier
import Extempore.AudioPeriods
import Extempore.FirstOccurrences
import Extempore.CapturedNames
import Extempore.StorageLifetimes
import Extempore.SurfaceForms
import Extempore.FirstTransform
import Extempore.CallTrees
import Extempore.SurfaceExpressions
import Extempore.Desugaring
import Extempore.DesugaredEvaluation
import Extempore.ScopedTrees
import Extempore.SurfaceScopes
import Extempore.ExpansionHygiene
import Extempore.RationalLibrary
import Extempore.LinkedLists
import Extempore.ListWindows
import Extempore.LittleEndian
import Extempore.NativeScheduler
import Extempore.SchemeNumbers
import Extempore.PatternLanguage
import Extempore.TypeUnification
import Extempore.LetForms
import Extempore.LetMachine
import Extempore.LetRefinement
import Extempore.CycleDetection
import Extempore.ListProcedures
import Extempore.AppliedLists
import Extempore.IndexedAccess
import Extempore.DivisionOpcodes
import Extempore.FlooredModulus
import Extempore.LockstepRuns
import Extempore.RelatedData
import Extempore.LetStar
import Extempore.SharedFrames
import Extempore.LetStarSteps
import Extempore.LetStarSimulation
import Extempore.NumberSyntax
import Extempore.StringConstants
import Extempore.CountedLoops
import Extempore.RegexLoops
import Extempore.BlockMemory
import Extempore.OutputPorts
import Extempore.OscBuffers
import Extempore.ZoneCopies
import Extempore.ZoneChains
import Extempore.OrderedPatterns
import Extempore.TypeStrings
import Extempore.TypeTokens
import Extempore.TypeParsing
import Extempore.StructLayouts
import Extempore.TypeSizes
import Extempore.TypeLayouts
import Extempore.CallbackArguments
import Extempore.CyclicShifts
import Extempore.AdtLists
import Extempore.NestedEquality
import Extempore.SinglyLinkedCells
import Extempore.AdtCells
import Extempore.AdtDictionaries
import Extempore.IntegerConversions
import Extempore.LoopCounters
import Extempore.NumericCoercion
import Extempore.FirstMatches
import Extempore.GenericExpansion
import Extempore.ResidueCounts
import Extempore.BoundedRandom
import Extempore.GapWords
import Extempore.EuclideanRhythms
import Extempore.IntegerCounting
import Extempore.PitchClasses
import Extempore.ListSorting
import Extempore.RefilledDecks
import Extempore.VoiceLeading
import Extempore.ChordBuilding
import Extempore.EditDistances
import Extempore.TextDistances
import Extempore.TextReplacement
import Extempore.VoiceAllocation
import Extempore.HoldMarks
import Extempore.MatchVariables
import Extempore.PatternMatching
import Extempore.MeasuredTypes
import Extempore.ContainerLaws
import Extempore.PreludeContainers
import Extempore.AudioBuffers
import Extempore.VectorSums
import Extempore.TricolourMarking
import Extempore.HeapCollector
import Extempore.ShadedSegments
import Extempore.CollectorMoves
import Extempore.CollectorSafety
import Extempore.ClockElection
import Extempore.ClockSafety
import Extempore.ClockProgress
import Extempore.CongruentialCycles
import Extempore.PcgGenerators
import Extempore.RandomSeeds
import Extempore.Quasiquote
import Extempore.OscRoundTrip
