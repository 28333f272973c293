import ExperienceCodex.BindingMaterial
import ExperienceCodex.ServerQualified
import ExperienceCodex.ManagementSafety
import ExperienceCodex.Doctor
import ExperienceCodex.InduceNames
import ExperienceCodex.Delegation
import ExperienceCodex.LearningInert
import ExperienceCodex.ManagementImport
import ExperienceCodex.WorkspaceFence
import ExperienceCodex.RunnerBackups
import ExperienceCodex.Restore
import ExperienceCodex.EffectsSound
import ExperienceCodex.WritableRootsSound
import ExperienceCodex.ExecRules
import ExperienceCodex.PatchTranslation
import ExperienceCodex.PatchDelta
import ExperienceCodex.PatchApproval
import ExperienceCodex.PatchRegions
import ExperienceCodex.HeadTail
import ExperienceCodex.NoiseStream
import ExperienceCodex.PromptHistory
import ExperienceCodex.StreamChunking
import ExperienceCodex.ToolNamesDistinct
import ExperienceCodex.ShellOperands
import ExperienceCodex.GateUserDecisions
import ExperienceCodex.GateFuse
import ExperienceCodex.PolicyOrder
import ExperienceCodex.ImportExport
import ExperienceCodex.GuardedPaths
import ExperienceCodex.RedactCuts
import ExperienceCodex.Truncate
import ExperienceCodex.BlockedRequests
import ExperienceCodex.DangerousCommands
import ExperienceCodex.Residency
import ExperienceCodex.ExecSessions
import ExperienceCodex.AgentSlots
import ExperienceCodex.Readiness
import ExperienceCodex.ReverseRecords
