import ConceptLogic.CommandLine
import ConceptLogic.Main
import ConceptLogic.Proofs.Evaluation.AccordingStates
import ConceptLogic.Proofs.Evaluation.AdmittedRenamings
import ConceptLogic.Proofs.Evaluation.CarriedWork
import ConceptLogic.Proofs.Evaluation.ComparisonChains
import ConceptLogic.Proofs.Evaluation.ConnectiveMeaning
import ConceptLogic.Proofs.Evaluation.DeclaredEntries
import ConceptLogic.Proofs.Evaluation.DeferredValues
import ConceptLogic.Proofs.Evaluation.EffectOutcomes
import ConceptLogic.Proofs.Evaluation.FaithfulEvaluation
import ConceptLogic.Proofs.Evaluation.GuardedEnvironments
import ConceptLogic.Proofs.Evaluation.KnownValues
import ConceptLogic.Proofs.Evaluation.NameIndependence
import ConceptLogic.Proofs.Evaluation.PhraseDenotation
import ConceptLogic.Proofs.Evaluation.QuietStatements
import ConceptLogic.Proofs.Evaluation.RecurringPhrases
import ConceptLogic.Proofs.Evaluation.RenamedEvaluation
import ConceptLogic.Proofs.Evaluation.Renaming
import ConceptLogic.Proofs.Evaluation.RenderedConcepts
import ConceptLogic.Proofs.Evaluation.RepeatedBuilding
import ConceptLogic.Proofs.Evaluation.RepeatedOperators
import ConceptLogic.Proofs.Evaluation.StableEvaluation
import ConceptLogic.Proofs.Evaluation.StateInvariants
import ConceptLogic.Proofs.Grammar.ConcurringResults
import ConceptLogic.Proofs.Grammar.DraftTrees
import ConceptLogic.Proofs.Grammar.FailureLocality
import ConceptLogic.Proofs.Grammar.FailureTraces
import ConceptLogic.Proofs.Grammar.FencedCursors
import ConceptLogic.Proofs.Grammar.FormReading
import ConceptLogic.Proofs.Grammar.FullDrafts
import ConceptLogic.Proofs.Grammar.JoinedPrograms
import ConceptLogic.Proofs.Grammar.LayoutVariation
import ConceptLogic.Proofs.Grammar.LegiblePhrases
import ConceptLogic.Proofs.Grammar.MatchTrees
import ConceptLogic.Proofs.Grammar.NameMarks
import ConceptLogic.Proofs.Grammar.NameRoles
import ConceptLogic.Proofs.Grammar.NameTokens
import ConceptLogic.Proofs.Grammar.ParseVerdicts
import ConceptLogic.Proofs.Grammar.PatternMatching
import ConceptLogic.Proofs.Grammar.PrintedStatements
import ConceptLogic.Proofs.Grammar.ProperPhrases
import ConceptLogic.Proofs.Grammar.TreeAssembly
import ConceptLogic.Proofs.Grammar.WordScanning
import ConceptLogic.Proofs.Ontology.AnonymousAnnexes
import ConceptLogic.Proofs.Ontology.ArrangedLevels
import ConceptLogic.Proofs.Ontology.BuildingConservation
import ConceptLogic.Proofs.Ontology.BuildingOutcomes
import ConceptLogic.Proofs.Ontology.CanonicalHandles
import ConceptLogic.Proofs.Ontology.Consistency
import ConceptLogic.Proofs.Ontology.NamedThings
import ConceptLogic.Proofs.Ontology.OntologyGrowth
import ConceptLogic.Proofs.Ontology.ReachedOntologies
import ConceptLogic.Proofs.Ontology.RebuiltConcepts
import ConceptLogic.Proofs.Ontology.RefusedCalls
import ConceptLogic.Proofs.Ontology.RelationLineage
import ConceptLogic.Proofs.Ontology.Representation
import ConceptLogic.Proofs.Ontology.ToldStrata
import ConceptLogic.Proofs.Ontology.TwinConcepts
import ConceptLogic.Proofs.Reasoning.AnswerSoundness
import ConceptLogic.Proofs.Reasoning.Distribution
import ConceptLogic.Proofs.Reasoning.Interpretation
import ConceptLogic.Proofs.Reasoning.MissedQueries
import ConceptLogic.Proofs.Reasoning.NotedAnswers
import ConceptLogic.Proofs.Reasoning.NotelessReasoning
import ConceptLogic.Proofs.Reasoning.PeerConcepts
import ConceptLogic.Proofs.Reasoning.PeerQueries
import ConceptLogic.Proofs.Reasoning.PersistentAnswers
import ConceptLogic.Proofs.Reasoning.ReachablePlaces
import ConceptLogic.Proofs.Reasoning.ReasoningRules
import ConceptLogic.Proofs.Reasoning.RuleLaws
import ConceptLogic.Proofs.Reasoning.SearchApproach
import ConceptLogic.Proofs.Reasoning.SearchCompleteness
import ConceptLogic.Proofs.Reasoning.SearchSteps
import ConceptLogic.Proofs.Reasoning.SearchTermination
import ConceptLogic.Proofs.Reasoning.SearchTrails
import ConceptLogic.Proofs.Reasoning.StuckSearches
import ConceptLogic.Proofs.Reasoning.Taxonomies
import ConceptLogic.Proofs.Reasoning.ToldAncestors
import ConceptLogic.Proofs.Reasoning.ToldFacts
import ConceptLogic.Proofs.Reasoning.TwinQueries
import ConceptLogic.Proofs.Session.LastingDefinitions
import ConceptLogic.Proofs.Session.MemoryAgreement
import ConceptLogic.Proofs.Session.ReachedStates
import ConceptLogic.Workspace
