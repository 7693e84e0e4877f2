import Reflow.Text.Basic

/-!
The pages that tell a coding agent how to use the formatter, as templates: the versions to run are
still to be filled in.
-/

namespace Reflow.Skill

def usageLines : List String :=
  ["---",
   "name: flowmark",
   "description: Fast, consistent Markdown auto-formatter for typographic cleanup, " ++
     "normalization, and clean semantic line breaks. Use when creating, editing, or cleaning " ++
     "Markdown; formatting LLM-generated docs; adopting Flowmark in a repository; adding " ++
     "Markdown format scripts or commit hooks; or replacing Prettier or another Markdown " ++
     "formatter.",
   "allowed-tools: Bash(flowmark:*), Bash(uvx:*), Read, Write",
   "---",
   "# Flowmark - Markdown Auto-Formatter",
   "",
   "Fast, consistent Markdown auto-formatter.",
   "Run it on Markdown you generate or edit so committed diffs stay small and readable.",
   "It is conservative and safe to run on every file: it never modifies code blocks or",
   "inline code.",
   "",
   "## Format Markdown",
   "",
   "Format in place with all auto-formatting (typography, cleanups, semantic line breaks):",
   "",
   "```bash",
   "flowmark --auto FILE   # one file",
   "flowmark --auto .      # whole tree (respects .gitignore and .flowmarkignore)",
   "```",
   "",
   "Omit `--auto` to preview to stdout; pipe stdin with `-` (e.g. `cat FILE | flowmark -`).",
   "",
   "Use `flowmark` when it is already on `PATH`. Otherwise use the fast",
   "[Rust port](https://github.com/jlevy/flowmark-rs) with a version-pinned `uvx` runner",
   "(never `@latest`):",
   "",
   "```bash",
   "uvx --from flowmark-rs==__FLOWMARK_RS_VERSION__ flowmark --auto FILE",
   "```",
   "",
   "The [Python reference](https://github.com/jlevy/flowmark) remains available when its",
   "library API or a newer unported patch is required:",
   "",
   "```bash",
   "uvx --from flowmark==__FLOWMARK_VERSION__ flowmark --auto FILE",
   "```",
   "",
   "## Adopt Flowmark in a Repository",
   "",
   "If this skill came from `flowmark --skill`, run the same runner with `--install-skill`",
   "from the project root to materialize the complete bundle.",
   "Then, for a repository-wide migration, Makefile wiring, `.flowmarkignore`, commit hooks,",
   "CI policy, and disabling Prettier or other competing Markdown formatters, read",
   "[project-setup.md](references/project-setup.md) in full before editing.",
   "",
   "## Full Documentation",
   "",
   "Flowmark documents itself.",
   "Use the CLI rather than reproducing details here:",
   "",
   "- `flowmark --help` — every flag: `--semantic`, `--smartquotes`, `--ellipses`,",
   "  `--width`, `--check`, list spacing, and file discovery",
   "  (`--extend-include`/`--extend-exclude`).",
   "- `flowmark --docs` — the full guide: configuration, file discovery, editor setup, the",
   "  Python library API, and installing this skill (`flowmark --install-skill`).",
   "",
   "<!-- This document follows common-doc-guidelines.md.",
   "See github.com/jlevy/practical-prose and review guidelines before editing.",
   "-->"]

def setupLines : List String :=
  ["# Project Setup and Migration",
   "",
   "Use this workflow when adopting Flowmark across a repository.",
   "Keep one `flowmark` skill; project setup is a use case of that skill, not a separate",
   "skill.",
   "",
   "## Migration Checklist",
   "",
   "1. Find the Markdown sources and identify generated, vendored, fixture, and golden files",
   "   that must retain byte-exact content.",
   "2. Add those paths to `.flowmarkignore`.",
   "3. Make Flowmark the only formatter that owns Markdown.",
   "   Disable Markdown in Prettier, Biome, dprint, editor format-on-save settings, and",
   "   existing Markdown hooks.",
   "4. Add one pinned project command and run it once over the repository.",
   "   Review and commit the baseline reformat separately from content changes.",
   "5. Add an auto-fixing commit hook.",
   "   Prefer a hook that stages its fixes so formatting does not become a manual gate.",
   "6. Do not fail the main build only for ordinary Markdown formatting drift.",
   "   Keep formatting local and automatic; reserve CI drift checks for generated or",
   "   contractually byte-exact documentation.",
   "",
   "## Pinned Project Command",
   "",
   "Prefer the Rust port through `uvx`:",
   "",
   "```makefile",
   "FLOWMARK := uvx --from flowmark-rs==__FLOWMARK_RS_VERSION__ flowmark",
   "",
   ".PHONY: format-docs",
   "format-docs:",
   "\t$(FLOWMARK) --auto .",
   "```",
   "",
   "Passing `.` lets Flowmark discover files once and honor `.gitignore` and",
   "`.flowmarkignore` from the repository root.",
   "Avoid shell `find` pipelines or per-directory invocations unless the repository requires",
   "them.",
   "",
   "Start `.flowmarkignore` with content Flowmark must not rewrite:",
   "",
   "```gitignore",
   "# Generated or vendored Markdown",
   "docs/api/_generated/",
   "third_party/",
   "",
   "# Byte-exact fixtures and golden files",
   "tests/fixtures/",
   "tests/golden/",
   "```",
   "",
   "When documentation is generated, format canonical sources first, then regenerate their",
   "mirrors. Exclude generated mirrors from Flowmark so there is one source of truth.",
   "",
   "## Auto-Fix on Commit",
   "",
   "Lefthook can format and stage Markdown without turning style into a separate failure:",
   "",
   "```yaml",
   "pre-commit:",
   "  commands:",
   "    flowmark:",
   "      glob: \"*.\x7bmd,mdc,markdown\x7d\"",
   "      run: uvx --from flowmark-rs==__FLOWMARK_RS_VERSION__ flowmark --auto " ++
     "--force-exclude \x7bstaged_files\x7d",
   "      stage_fixed: true",
   "```",
   "",
   "`--force-exclude` applies `.flowmarkignore` even though the hook passes explicit file",
   "paths. If generated docs must be refreshed after formatting, call one repository script",
   "or Make target that performs both operations in the required order.",
   "",
   "For the `pre-commit` framework, use a local system hook with the same pinned command:",
   "",
   "```yaml",
   "repos:",
   "  - repo: local",
   "    hooks:",
   "      - id: flowmark",
   "        name: flowmark",
   "        entry: uvx --from flowmark-rs==__FLOWMARK_RS_VERSION__ flowmark --auto " ++
     "--force-exclude",
   "        language: system",
   "        files: '\\.(md|mdc|markdown)$'",
   "```",
   "",
   "Keep both hook selectors aligned with any Markdown extensions the repository discovers",
   "through `--extend-include`. The `pre-commit` framework stops the first commit after",
   "modifying files; stage the fixes and retry.",
   "Use Lefthook with `stage_fixed: true` when transparent auto-staging is preferred.",
   "",
   "## Disable Competing Markdown Formatters",
   "",
   "For Prettier, exclude Markdown in `.prettierignore`:",
   "",
   "```gitignore",
   "*.md",
   "```",
   "",
   "Also remove Markdown-specific Prettier hooks and editor defaults.",
   "If Flowmark owns MDX or another extension via `--extend-include`, exclude that extension",
   "from Prettier too.",
   "",
   "Apply the same ownership rule to other tools: keep them for code and data formats, but",
   "remove Markdown from their include globs and format-on-save configuration.",
   "Do not run two Markdown formatters sequentially; they can churn each other’s output and",
   "make hooks or CI nondeterministic.",
   "",
   "<!-- This document follows common-doc-guidelines.md.",
   "See github.com/jlevy/practical-prose and review guidelines before editing.",
   "-->"]

def page (ls : List String) : Text := ls.flatMap fun l => l.toList ++ ['\n']

def usageTemplate : Text := page usageLines

def setupTemplate : Text := page setupLines

end Reflow.Skill
